import Mcfreeze.Lib.JsonText
import Mathlib.Data.String.Basic
import Mathlib.Data.List.Nodup
import Mathlib.Data.List.Pairwise

/-!
# Typed decoders

Decoders in the manner of derived ones: a record is an object whose members are matched to
its fields by name, in any order, or an array of its fields in order; a field that comes
twice is an error, an unknown one is skipped.  An untyped value is decoded into a form whose
objects are sorted by name, where the last member of a name counts.

A derived decoder does not see the order of members, so it decodes the same from a value that
was decoded untyped and written again, as long as no name comes twice.
-/

namespace Json

/-! ### Fields -/

/-- What stands for a field of a record with the fields `names`, if anything does. -/
def find (names : List String) (name : String) : Json → Option (Option Json)
  | .obj ms =>
    match ms.filter fun m => m.1 = name with
    | [] => some none
    | [m] => some (some m.2)
    | _ => none
  | .arr vs => if names.length < vs.length then none else some vs[names.idxOf name]?
  | _ => none

/-- Decode a field; `missing` is what it is when nothing stands for it. -/
def field {α : Type} (names : List String) (missing : Json → Option α) (dec : Json → Option α)
    (name : String) (j : Json) : Option α :=
  (find names name j).bind fun v => v.elim (missing j) dec

/-- The field must be there. -/
def required {α : Type} (_ : Json) : Option α := none

/-- The field may be left out. -/
def orDefault {α : Type} (default : α) (_ : Json) : Option α := some default

/-- A member may be left out, but not an element. -/
def orNone {α : Type} : Json → Option (Option α)
  | .arr _ => none
  | _ => some none

/-! ### Types -/

def decodeStr : Json → Option String
  | .str s => some s
  | _ => none

def decodeBool : Json → Option Bool
  | .bool b => some b
  | _ => none

/-- An integer of so many bits, without sign. -/
def decodeUInt (bits : Nat) : Json → Option Nat
  | .num n => if 0 ≤ n ∧ n < 2 ^ bits then some n.toNat else none
  | _ => none

def decodeOption {α : Type} (dec : Json → Option α) : Json → Option (Option α)
  | .null => some none
  | j => (dec j).map some

def decodeVec {α : Type} (dec : Json → Option α) : Json → Option (List α)
  | .arr vs => vs.mapM dec
  | _ => none

/-! ### Untyped values -/

/-- Put a member into a sorted object, in the place of the one with its name. -/
def insertMember (m : String × Json) : List (String × Json) → List (String × Json)
  | [] => [m]
  | n :: ms =>
    if m.1 < n.1 then m :: n :: ms
    else if m.1 = n.1 then m :: ms
    else n :: insertMember m ms

/-- Put members into a sorted object, one after the other. -/
def insertMembers (sorted ms : List (String × Json)) : List (String × Json) :=
  ms.foldl (fun sorted m => insertMember m sorted) sorted

mutual

/-- Decode an untyped value. -/
def normalize : Json → Json
  | .arr vs => .arr (normalizeElems vs)
  | .obj ms => .obj (insertMembers [] (normalizeMembers ms))
  | v => v

def normalizeElems : List Json → List Json
  | [] => []
  | v :: vs => v.normalize :: normalizeElems vs

def normalizeMembers : List (String × Json) → List (String × Json)
  | [] => []
  | (name, v) :: ms => (name, v.normalize) :: normalizeMembers ms

end

/-- Assign a member of an untyped value.  `null` becomes an object, and other values cannot
get members. -/
def put (j : Json) (name : String) (v : Json) : Option Json :=
  match j with
  | .null => some (.obj [(name, v)])
  | .obj ms => some (.obj (insertMember (name, v) ms))
  | _ => none

/-- The form of untyped values: objects are sorted by name. -/
inductive Canonical : Json → Prop where
  | null : Canonical .null
  | bool (b : Bool) : Canonical (.bool b)
  | num (n : Int) : Canonical (.num n)
  | double (bits : UInt64) : Canonical (.double bits)
  | str (s : String) : Canonical (.str s)
  | arr (vs : List Json) (h : ∀ v ∈ vs, Canonical v) : Canonical (.arr vs)
  | obj (ms : List (String × Json)) (sorted : ms.Pairwise fun m n => m.1 < n.1)
    (h : ∀ m ∈ ms, Canonical m.2) : Canonical (.obj ms)

/-- No object has two members of one name. -/
inductive Distinct : Json → Prop where
  | null : Distinct .null
  | bool (b : Bool) : Distinct (.bool b)
  | num (n : Int) : Distinct (.num n)
  | double (bits : UInt64) : Distinct (.double bits)
  | str (s : String) : Distinct (.str s)
  | arr (vs : List Json) (h : ∀ v ∈ vs, Distinct v) : Distinct (.arr vs)
  | obj (ms : List (String × Json)) (names : (ms.map Prod.fst).Nodup)
    (h : ∀ m ∈ ms, Distinct m.2) : Distinct (.obj ms)

/-! ### Sorted members -/

theorem normalizeElems_eq (vs : List Json) :
  normalizeElems vs = vs.map normalize
  := by
  induction vs with
  | nil => simp [normalizeElems]
  | cons v vs ih => simp [normalizeElems, ih]

theorem normalizeMembers_eq (ms : List (String × Json)) :
  normalizeMembers ms = ms.map fun m => (m.1, m.2.normalize)
  := by
  induction ms with
  | nil => simp [normalizeMembers]
  | cons m ms ih => simp [normalizeMembers, ih]

/-- Sorted by name. -/
abbrev Sorted (ms : List (String × Json)) : Prop := ms.Pairwise fun m n => m.1 < n.1

/-- An insertion adds no other member. -/
theorem mem_insertMember {m n : String × Json} {ms : List (String × Json)}
    (h : n ∈ insertMember m ms) :
  n = m ∨ n ∈ ms
  := by
  induction ms with
  | nil => simpa [insertMember] using h
  | cons k ms ih =>
    unfold insertMember at h
    split_ifs at h
    · simpa using h
    · obtain h | h := List.mem_cons.1 h
      · exact .inl h
      · exact .inr (List.mem_cons_of_mem k h)
    · obtain h | h := List.mem_cons.1 h
      · exact .inr (h ▸ List.mem_cons_self)
      · exact (ih h).imp_right (List.mem_cons_of_mem k)

/-- An insertion keeps the members in the order of their names. -/
theorem sorted_insertMember (m : String × Json) {ms : List (String × Json)} (h : Sorted ms) :
  Sorted (insertMember m ms)
  := by
  induction ms with
  | nil => exact List.pairwise_singleton _ m
  | cons n ms ih =>
    obtain ⟨hn, hms⟩ := List.pairwise_cons.1 h
    unfold insertMember
    split_ifs with hlt heq
    · refine List.pairwise_cons.2 ⟨fun k hk => ?_, h⟩
      obtain rfl | hk := List.mem_cons.1 hk
      · exact hlt
      · exact hlt.trans (hn k hk)
    · exact List.pairwise_cons.2 ⟨fun k hk => heq ▸ hn k hk, hms⟩
    · refine List.pairwise_cons.2 ⟨fun k hk => ?_, ih hms⟩
      obtain rfl | hk := mem_insertMember hk
      · exact lt_of_le_of_ne (not_lt.1 hlt) (Ne.symm heq)
      · exact hn k hk

theorem filter_name_of_lt {name : String} {ms : List (String × Json)}
    (h : ∀ m ∈ ms, name < m.1) :
  ms.filter (fun m => m.1 = name) = []
  := by
  apply List.filter_eq_nil_iff.2
  intro m hm
  simpa using (h m hm).ne'

/-- The members of a name after one is put into a sorted object. -/
theorem filter_insertMember (m : String × Json) {ms : List (String × Json)} (h : Sorted ms)
    (name : String) :
  (insertMember m ms).filter (fun n => n.1 = name)
    = if m.1 = name then [m] else ms.filter fun n => n.1 = name
  := by
  induction ms with
  | nil => by_cases hm : m.1 = name <;> simp [insertMember, hm]
  | cons n ms ih =>
    obtain ⟨hn, hms⟩ := List.pairwise_cons.1 h
    unfold insertMember
    by_cases hlt : m.1 < n.1
    · have hgt : ∀ k ∈ n :: ms, m.1 < k.1 := by
        intro k hk
        obtain rfl | hk := List.mem_cons.1 hk
        · exact hlt
        · exact hlt.trans (hn k hk)
      rw [if_pos hlt, List.filter_cons]
      split_ifs with hm hm'
      · rw [filter_name_of_lt (hm' ▸ hgt)]
      all_goals simp_all
    by_cases heq : m.1 = n.1
    · rw [if_neg hlt, if_pos heq]
      by_cases hm : m.1 = name
      · rw [if_pos hm, List.filter_cons_of_pos (by simpa using hm),
          filter_name_of_lt fun k hk => hm ▸ heq ▸ hn k hk]
      · rw [if_neg hm, List.filter_cons_of_neg (by simpa using hm),
          List.filter_cons_of_neg (by simpa [← heq] using hm)]
    · rw [if_neg hlt, if_neg heq, List.filter_cons, ih hms, List.filter_cons]
      split_ifs with hnm hm
      · exact absurd (hm.trans (of_decide_eq_true hnm).symm) heq
      all_goals rfl

/-- The last of the members of a name counts. -/
theorem filter_insertMembers {sorted : List (String × Json)} (h : Sorted sorted)
    (ms : List (String × Json)) (name : String) :
  (insertMembers sorted ms).filter (fun n => n.1 = name)
    = ((ms.filter fun n => n.1 = name).getLast?.map fun m => [m]).getD
        (sorted.filter fun n => n.1 = name)
  := by
  induction ms generalizing sorted with
  | nil => rfl
  | cons m ms ih =>
    have hcons : insertMembers sorted (m :: ms) = insertMembers (insertMember m sorted) ms := rfl
    rw [hcons, ih (sorted_insertMember m h), filter_insertMember m h, List.filter_cons]
    split_ifs with hm hm' hm'
    · rw [List.getLast?_cons]
      cases (ms.filter fun n => n.1 = name).getLast? <;> rfl
    · exact absurd (decide_eq_true hm) hm'
    · exact absurd (of_decide_eq_true hm') hm
    · rfl

theorem sorted_insertMembers {sorted : List (String × Json)} (h : Sorted sorted)
    (ms : List (String × Json)) :
  Sorted (insertMembers sorted ms)
  := by
  induction ms generalizing sorted with
  | nil => exact h
  | cons m ms ih => exact ih (sorted_insertMember m h)

/-- The insertions add no other members. -/
theorem mem_insertMembers {m : String × Json} {sorted ms : List (String × Json)}
    (h : m ∈ insertMembers sorted ms) :
  m ∈ sorted ∨ m ∈ ms
  := by
  induction ms generalizing sorted with
  | nil => exact .inl h
  | cons n ms ih =>
    obtain h | h := ih h
    · obtain rfl | h := mem_insertMember h
      · exact .inr List.mem_cons_self
      · exact .inl h
    · exact .inr (List.mem_cons_of_mem n h)

/-- A member that is greater than all others is put at the end. -/
theorem insertMember_of_gt {m : String × Json} {ms : List (String × Json)}
    (h : ∀ n ∈ ms, n.1 < m.1) :
  insertMember m ms = ms ++ [m]
  := by
  induction ms with
  | nil => rfl
  | cons n ms ih =>
    have hn := h n List.mem_cons_self
    rw [insertMember, if_neg hn.not_gt, if_neg hn.ne', ih fun k hk => h k (List.mem_cons_of_mem n hk)]
    rfl

/-- Members that are in the order of their names stay in it. -/
theorem insertMembers_of_sorted (sorted : List (String × Json)) {ms : List (String × Json)}
    (h : Sorted (sorted ++ ms)) :
  insertMembers sorted ms = sorted ++ ms
  := by
  induction ms generalizing sorted with
  | nil => exact (List.append_nil sorted).symm
  | cons m ms ih =>
    have hlt : ∀ n ∈ sorted, n.1 < m.1 := fun n hn =>
      (List.pairwise_append.1 h).2.2 n hn m List.mem_cons_self
    have hcons : insertMembers sorted (m :: ms) = insertMembers (insertMember m sorted) ms := rfl
    rw [hcons, insertMember_of_gt hlt, ih _ (by simpa using h), List.append_assoc]
    rfl

/-! ### Canonical values -/

/-- Induction over values. -/
@[elab_as_elim]
theorem induction {P : Json → Prop} (null : P .null) (bool : ∀ b, P (.bool b))
    (num : ∀ n, P (.num n)) (double : ∀ bits, P (.double bits)) (str : ∀ s, P (.str s))
    (arr : ∀ vs, (∀ v ∈ vs, P v) → P (.arr vs))
    (obj : ∀ ms, (∀ m ∈ ms, P m.2) → P (.obj ms)) (v : Json) :
  P v
  := by
  match v with
  | .null => exact null
  | .bool b => exact bool b
  | .num n => exact num n
  | .double bits => exact double bits
  | .str s => exact str s
  | .arr vs => exact arr vs fun v _ => induction null bool num double str arr obj v
  | .obj ms => exact obj ms fun m _ => induction null bool num double str arr obj m.2
termination_by sizeOf v
decreasing_by
  · have := List.sizeOf_lt_of_mem ‹v ∈ vs›
    simp only [Json.arr.sizeOf_spec]
    omega
  · have := List.sizeOf_lt_of_mem ‹m ∈ ms›
    have : sizeOf m = 1 + sizeOf m.1 + sizeOf m.2 := Prod.mk.sizeOf_spec ..
    simp only [Json.obj.sizeOf_spec]
    omega

/-- An untyped value is in its form. -/
theorem canonical_normalize (v : Json) :
  Canonical v.normalize
  := by
  induction v using Json.induction with
  | null => exact .null
  | bool b => exact .bool b
  | num n => exact .num n
  | double bits => exact .double bits
  | str s => exact .str s
  | arr vs ih =>
    rw [normalize, normalizeElems_eq]
    refine .arr _ fun v hv => ?_
    obtain ⟨w, hw, rfl⟩ := List.mem_map.1 hv
    exact ih w hw
  | obj ms ih =>
    rw [normalize, normalizeMembers_eq]
    refine .obj _ (sorted_insertMembers .nil _) fun m hm => ?_
    obtain hm | hm := mem_insertMembers hm
    · cases hm
    · obtain ⟨n, hn, rfl⟩ := List.mem_map.1 hm
      exact ih n hn

/-- What is in the form of untyped values is decoded as it is. -/
theorem normalize_of_canonical {v : Json} (hv : Canonical v) :
  v.normalize = v
  := by
  induction hv with
  | arr vs h ih =>
    rw [normalize, normalizeElems_eq, List.map_congr_left ih, List.map_id']
  | obj ms sorted h ih =>
    have hms : ms.map (fun m => (m.1, m.2.normalize)) = ms.map id :=
      List.map_congr_left fun m hm => Prod.ext rfl (ih m hm)
    rw [normalize, normalizeMembers_eq, hms, List.map_id,
      insertMembers_of_sorted [] sorted, List.nil_append]
  | _ => rfl

/-- A canonical value has no repeated names. -/
theorem Canonical.distinct {v : Json} (hv : Canonical v) :
  Distinct v
  := by
  induction hv with
  | null => exact .null
  | bool b => exact .bool b
  | num n => exact .num n
  | double bits => exact .double bits
  | str s => exact .str s
  | arr vs h ih => exact .arr vs ih
  | obj ms sorted h ih =>
    exact .obj ms (List.pairwise_map.2 (sorted.imp fun hlt => hlt.ne)) ih

/-! ### Reading again -/

/-- What is read untyped where `v` was written. -/
def reread (g : UInt64 → UInt64) (v : Json) : Json := (v.mapDoubles g).normalize

variable {g : UInt64 → UInt64}

theorem reread_arr (vs : List Json) :
  reread g (.arr vs) = .arr (vs.map (reread g))
  := by
  simp only [reread, mapDoubles, normalize, normalizeElems_eq, mapElems_eq, List.map_map]
  rfl

theorem reread_obj (ms : List (String × Json)) :
  reread g (.obj ms) = .obj (insertMembers [] (ms.map fun m => (m.1, reread g m.2)))
  := by
  simp only [reread, mapDoubles, normalize, normalizeMembers_eq, mapMembers_eq, List.map_map]
  rfl

/-- No more than one member of a name. -/
theorem filter_name_of_nodup {ms : List (String × Json)} (h : (ms.map Prod.fst).Nodup)
    (name : String) :
  ms.filter (fun m => m.1 = name) = [] ∨ ∃ m, ms.filter (fun m => m.1 = name) = [m]
  := by
  induction ms with
  | nil => exact .inl rfl
  | cons m ms ih =>
    obtain ⟨hm, hms⟩ := List.nodup_cons.1 h
    rw [List.filter_cons]
    split_ifs with hname
    · have hnone : ms.filter (fun n => n.1 = name) = [] := by
        apply List.filter_eq_nil_iff.2
        intro n hn hn'
        have heq : n.1 = m.1 := (of_decide_eq_true hn').trans (of_decide_eq_true hname).symm
        exact hm (heq ▸ List.mem_map_of_mem hn)
      exact .inr ⟨m, by rw [hnone]⟩
    · exact ih hms

/-- What stands for a field, where the record was written and read untyped. -/
theorem find_reread {j : Json} (hj : Distinct j) (names : List String) (name : String) :
  find names name (reread g j) = (find names name j).map (Option.map (reread g))
  := by
  cases hj with
  | arr vs h =>
    rw [reread_arr]
    simp only [find, List.length_map, List.getElem?_map]
    split_ifs <;> rfl
  | obj ms hnames h =>
    rw [reread_obj]
    have hfilter : (ms.map fun m => (m.1, reread g m.2)).filter (fun m => m.1 = name)
        = (ms.filter fun m => m.1 = name).map fun m => (m.1, reread g m.2) := by
      rw [List.filter_map]
      rfl
    simp only [find, filter_insertMembers .nil, hfilter]
    obtain hms | ⟨m, hms⟩ := filter_name_of_nodup hnames name
    all_goals
      rw [hms]
      rfl
  | _ => rfl

/-- A decoder gives `f a` where a value that it decodes to `a` was written and read untyped. -/
def Rereads {α : Type} (g : UInt64 → UInt64) (dec : Json → Option α) (f : α → α) : Prop :=
  ∀ v, Distinct v → dec (reread g v) = (dec v).map f

theorem rereads_decodeStr :
  Rereads g decodeStr id
  := by
  intro v hv
  cases hv with
  | arr vs h => rw [reread_arr]; rfl
  | obj ms hnames h => rw [reread_obj]; rfl
  | _ => rfl

theorem rereads_decodeBool :
  Rereads g decodeBool id
  := by
  intro v hv
  cases hv with
  | arr vs h => rw [reread_arr]; rfl
  | obj ms hnames h => rw [reread_obj]; rfl
  | _ => rfl

/-- An integer is read again as it is. -/
theorem rereads_decodeUInt (bits : Nat) :
  Rereads g (decodeUInt bits) id
  := by
  intro v hv
  cases hv with
  | arr vs h => rw [reread_arr]; rfl
  | obj ms hnames h => rw [reread_obj]; rfl
  | num n =>
    have hid : reread g (.num n) = .num n := rfl
    rw [hid, Option.map_id, id_eq]
  | _ => rfl

section

variable {α : Type} {dec : Json → Option α} {f : α → α}

theorem reread_ne_null {v : Json} (hv : v ≠ .null) :
  reread g v ≠ .null
  := by
  cases v with
  | null => exact absurd rfl hv
  | arr vs => simp [reread_arr]
  | obj ms => simp [reread_obj]
  | _ => simp [reread, mapDoubles, normalize]

theorem decodeOption_of_ne_null {v : Json} (hv : v ≠ .null) :
  decodeOption dec v = (dec v).map some
  := by
  cases v with
  | null => exact absurd rfl hv
  | _ => rfl

theorem Rereads.decodeOption (hdec : Rereads g dec f) :
  Rereads g (decodeOption dec) (Option.map f)
  := by
  intro v hv
  by_cases hnull : v = .null
  · subst hnull
    rfl
  · rw [decodeOption_of_ne_null hnull, decodeOption_of_ne_null (reread_ne_null hnull), hdec v hv]
    cases dec v <;> rfl

/-- If each element changes by `f` when it is read again, so does the list. -/
theorem mapM_reread {vs : List Json} (h : ∀ v ∈ vs, dec (reread g v) = (dec v).map f) :
  (vs.map (reread g)).mapM dec = (vs.mapM dec).map (List.map f)
  := by
  induction vs with
  | nil => rfl
  | cons v vs ih =>
    have hv := h v List.mem_cons_self
    have hvs := ih fun w hw => h w (List.mem_cons_of_mem v hw)
    rw [List.map_cons, List.mapM_cons, List.mapM_cons, hv, hvs]
    cases dec v with
    | none => rfl
    | some a => cases vs.mapM dec <;> rfl

/-- A vector changes only in its elements. -/
theorem Rereads.decodeVec (hdec : Rereads g dec f) :
  Rereads g (decodeVec dec) (List.map f)
  := by
  intro v hv
  cases hv with
  | arr vs h =>
    rw [reread_arr]
    exact mapM_reread fun v hv => hdec v (h v hv)
  | obj ms hnames h =>
    rw [reread_obj]
    rfl
  | _ => rfl

/-- A value that is found in one without repeated names has none. -/
theorem distinct_of_find {names : List String} {name : String} {j v : Json} (hj : Distinct j)
    (h : find names name j = some (some v)) :
  Distinct v
  := by
  cases hj with
  | arr vs hvs =>
    simp only [find] at h
    split_ifs at h
    exact hvs v (List.mem_of_getElem? (Option.some_inj.1 h))
  | obj ms hnames hms =>
    simp only [find] at h
    obtain hfilter | ⟨m, hfilter⟩ := filter_name_of_nodup hnames name
    · simp [hfilter] at h
    · rw [hfilter] at h
      cases h
      have hm : m ∈ ms.filter fun m => m.1 = name := hfilter ▸ List.mem_singleton_self m
      exact hms m (List.mem_filter.1 hm).1
  | _ => simp [find] at h

/-- A field is read again if its type is, and its default does not change. -/
theorem Rereads.field (hdec : Rereads g dec f) {missing : Json → Option α}
    (hmissing : ∀ v, missing (reread g v) = (missing v).map f) (names : List String)
    (name : String) :
  Rereads g (field names missing dec name) f
  := by
  intro v hv
  rw [Json.field, Json.field, find_reread hv]
  cases hfind : find names name v with
  | none => rfl
  | some found =>
    cases found with
    | none => exact hmissing v
    | some w => exact hdec w (distinct_of_find hv hfind)

theorem orNone_obj (ms : List (String × Json)) :
  (orNone (.obj ms) : Option (Option α)) = some none
  :=
  rfl

theorem orNone_reread (v : Json) :
  (orNone (reread g v) : Option (Option α)) = (orNone v).map (Option.map f)
  := by
  cases v with
  | arr vs => rw [reread_arr]; rfl
  | obj ms => rw [reread_obj]; rfl
  | _ => rfl

end

/-! ### Decoders without doubles -/

/-- A decoder gives the same where a value was written and read untyped. -/
def Steady {α : Type} (dec : Json → Option α) : Prop :=
  ∀ g v, Distinct v → dec (reread g v) = dec v

theorem steady_iff {α : Type} {dec : Json → Option α} :
  Steady dec ↔ ∀ g, Rereads g dec id
  := by
  simp only [Steady, Rereads, Option.map_id, id_eq]

section

variable {α β : Type}

theorem steady_decodeStr :
  Steady decodeStr
  :=
  steady_iff.2 fun _ => rereads_decodeStr

theorem steady_decodeBool :
  Steady decodeBool
  :=
  steady_iff.2 fun _ => rereads_decodeBool

theorem steady_decodeUInt (bits : Nat) :
  Steady (decodeUInt bits)
  :=
  steady_iff.2 fun _ => rereads_decodeUInt bits

theorem Steady.option {dec : Json → Option α} (h : Steady dec) :
  Steady (decodeOption dec)
  := by
  refine steady_iff.2 fun g => ?_
  have hoption := (steady_iff.1 h g).decodeOption
  rwa [Option.map_id] at hoption

theorem Steady.vec {dec : Json → Option α} (h : Steady dec) :
  Steady (decodeVec dec)
  := by
  refine steady_iff.2 fun g => ?_
  have hvec := (steady_iff.1 h g).decodeVec
  rwa [List.map_id_fun] at hvec

theorem Steady.field {dec missing : Json → Option α} (h : Steady dec)
    (hmissing : ∀ g v, missing (reread g v) = missing v) (names : List String) (name : String) :
  Steady (field names missing dec name)
  :=
  steady_iff.2 fun g => (steady_iff.1 h g).field
    (fun v => by rw [hmissing g v, Option.map_id, id_eq]) names name

theorem Steady.bind {dec : Json → Option α} (h : Steady dec) {k : α → Json → Option β}
    (hk : ∀ a, Steady (k a)) :
  Steady fun j => (dec j).bind fun a => k a j
  := by
  intro g v hv
  simp only [h g v hv, fun a => hk a g v hv]

theorem Steady.map {dec : Json → Option α} (h : Steady dec) (k : α → β) :
  Steady fun j => (dec j).map k
  := by
  intro g v hv
  simp only [h g v hv]

end

/-! ### Reading records -/

/-- The member of a field is decoded. -/
theorem field_of_mem {α : Type} {names : List String} {missing : Json → Option α}
    {dec : Json → Option α} {ms : List (String × Json)} (h : (ms.map Prod.fst).Nodup) {name : String}
    {v : Json} (hv : (name, v) ∈ ms) :
  field names missing dec name (.obj ms) = dec v
  := by
  have hmem : (name, v) ∈ ms.filter fun m => m.1 = name :=
    List.mem_filter.2 ⟨hv, decide_eq_true rfl⟩
  obtain hms | ⟨m, hms⟩ := filter_name_of_nodup h name
  · rw [hms] at hmem
    cases hmem
  · rw [hms, List.mem_singleton] at hmem
    simp only [field, find, hms, ← hmem]
    rfl

/-- Elements are decoded one by one. -/
theorem decodeVec_map {α β : Type} {dec : Json → Option α} {f : β → Json} {k : β → α} {l : List β}
    (h : ∀ b ∈ l, dec (f b) = some (k b)) :
  decodeVec dec (.arr (l.map f)) = some (l.map k)
  := by
  rw [decodeVec]
  induction l with
  | nil => rfl
  | cons b l ih =>
    rw [List.map_cons, List.mapM_cons, h b List.mem_cons_self,
      ih fun c hc => h c (List.mem_cons_of_mem b hc)]
    rfl

theorem filter_name_of_not_mem {ms : List (String × Json)} {name : String}
    (h : name ∉ ms.map Prod.fst) :
  ms.filter (fun m => m.1 = name) = []
  := by
  apply List.filter_eq_nil_iff.2
  intro m hm heq
  exact h (of_decide_eq_true heq ▸ List.mem_map_of_mem hm)

theorem field_of_not_mem {α : Type} {names : List String} {missing : Json → Option α}
    {dec : Json → Option α} {ms : List (String × Json)} {name : String}
    (h : name ∉ ms.map Prod.fst) :
  field names missing dec name (.obj ms) = missing (.obj ms)
  := by
  simp only [field, find, filter_name_of_not_mem h]
  rfl

theorem mapDoubles_id (v : Json) :
  v.mapDoubles id = v
  := by
  induction v using Json.induction with
  | arr vs ih => rw [mapDoubles, mapElems_eq, List.map_congr_left ih, List.map_id']
  | obj ms ih =>
    have hms : ms.map (fun m => (m.1, m.2.mapDoubles id)) = ms.map id :=
      List.map_congr_left fun m hm => Prod.ext rfl (ih m hm)
    rw [mapDoubles, mapMembers_eq, hms, List.map_id]
  | _ => rfl

/-- The names in a value do not depend on its doubles. -/
theorem Distinct.mapDoubles {v : Json} (hv : Distinct v) (g : UInt64 → UInt64) :
  Distinct (v.mapDoubles g)
  := by
  induction hv with
  | null => exact .null
  | bool b => exact .bool b
  | num n => exact .num n
  | double bits => exact .double (g bits)
  | str s => exact .str s
  | arr vs h ih =>
    rw [Json.mapDoubles, mapElems_eq]
    refine .arr _ fun v hv => ?_
    obtain ⟨w, hw, rfl⟩ := List.mem_map.1 hv
    exact ih w hw
  | obj ms names h ih =>
    rw [Json.mapDoubles, mapMembers_eq]
    refine .obj _ ?_ fun m hm => ?_
    · rw [List.map_map]
      exact names
    · obtain ⟨n, hn, rfl⟩ := List.mem_map.1 hm
      exact ih n hn

/-- A decoder gives the same where a value was written, whether it was read typed or
untyped. -/
theorem Rereads.mapDoubles {α : Type} {dec : Json → Option α} {f : (UInt64 → UInt64) → α → α}
    (hdec : ∀ g, Rereads g dec (f g)) (hid : f id = id) {v : Json} (hv : Distinct v)
    (g : UInt64 → UInt64) :
  dec (v.mapDoubles g) = (dec v).map (f g)
  := by
  have huntyped := hdec id (v.mapDoubles g) (hv.mapDoubles g)
  rw [hid, Option.map_id, id_eq] at huntyped
  rw [← huntyped, ← hdec g v hv]
  simp only [reread, mapDoubles_id]

/-! ### Untyped values again -/

/-- The place of a member depends only on its name. -/
theorem insertMember_map (f : Json → Json) (m : String × Json) (ms : List (String × Json)) :
  insertMember (m.1, f m.2) (ms.map fun n => (n.1, f n.2))
    = (insertMember m ms).map fun n => (n.1, f n.2)
  := by
  induction ms with
  | nil => rfl
  | cons n ms ih =>
    simp only [List.map_cons, insertMember]
    split_ifs
    · rfl
    · rfl
    · rw [List.map_cons, ih]

theorem insertMembers_map (f : Json → Json) (sorted ms : List (String × Json)) :
  insertMembers (sorted.map fun n => (n.1, f n.2)) (ms.map fun n => (n.1, f n.2))
    = (insertMembers sorted ms).map fun n => (n.1, f n.2)
  := by
  induction ms generalizing sorted with
  | nil => rfl
  | cons m ms ih =>
    have hcons : insertMembers sorted (m :: ms) = insertMembers (insertMember m sorted) ms := rfl
    rw [hcons, ← ih, ← insertMember_map]
    rfl

/-- Replacing the doubles commutes with decoding untyped. -/
theorem normalize_mapDoubles (v : Json) :
  (v.mapDoubles g).normalize = v.normalize.mapDoubles g
  := by
  induction v using Json.induction with
  | arr vs ih =>
    simp only [mapDoubles, normalize, normalizeElems_eq, mapElems_eq, List.map_map]
    exact congrArg Json.arr (List.map_congr_left ih)
  | obj ms ih =>
    simp only [mapDoubles, normalize, normalizeMembers_eq, mapMembers_eq, List.map_map]
    rw [← insertMembers_map (mapDoubles g) []]
    simp only [List.map_nil, List.map_map]
    exact congrArg (fun ms => Json.obj (insertMembers [] ms))
      (List.map_congr_left fun m hm => Prod.ext rfl (ih m hm))
  | _ => rfl

def decodeValue (v : Json) : Option Json := some v.normalize

theorem rereads_decodeValue :
  Rereads g decodeValue (mapDoubles g)
  := by
  intro v _
  simp only [decodeValue, Option.map_some, reread, normalize_of_canonical (canonical_normalize _),
    normalize_mapDoubles]

theorem find_insertMember {ms : List (String × Json)} (h : Sorted ms) (m : String × Json)
    (names : List String) (name : String) :
  find names name (.obj (insertMember m ms))
    = if m.1 = name then some (some m.2) else find names name (.obj ms)
  := by
  simp only [find, filter_insertMember m h]
  split_ifs <;> rfl

/-- A field of another name is as before. -/
theorem field_insertMember_ne {α : Type} {missing : Json → Option α} {dec : Json → Option α}
    (hmissing : ∀ ms ms', missing (.obj ms) = missing (.obj ms')) {ms : List (String × Json)}
    (h : Sorted ms) {m : String × Json} {name : String} (hm : m.1 ≠ name) (names : List String) :
  field names missing dec name (.obj (insertMember m ms))
    = field names missing dec name (.obj ms)
  := by
  rw [field, field, find_insertMember h, if_neg hm, hmissing ms]

theorem field_insertMember_self {α : Type} {missing : Json → Option α} {dec : Json → Option α}
    {ms : List (String × Json)} (h : Sorted ms) (m : String × Json) (names : List String) :
  field names missing dec m.1 (.obj (insertMember m ms)) = dec m.2
  := by
  rw [field, find_insertMember h, if_pos rfl]
  rfl

theorem canonical_insertMember {ms : List (String × Json)} (h : Canonical (.obj ms))
    {m : String × Json} (hm : Canonical m.2) :
  Canonical (.obj (insertMember m ms))
  := by
  cases h with
  | obj _ sorted h =>
    refine .obj _ (sorted_insertMember m sorted) fun n hn => ?_
    obtain rfl | hn := mem_insertMember hn
    · exact hm
    · exact h n hn

theorem writable_insertMember {ms : List (String × Json)} (h : Writable (.obj ms))
    {m : String × Json} (hm : Writable m.2) :
  Writable (.obj (insertMember m ms))
  := by
  cases h with
  | obj _ h =>
    refine .obj _ fun n hn => ?_
    obtain rfl | hn := mem_insertMember hn
    · exact hm
    · exact h n hn

/-- A value that can be printed can be printed after it was read again. -/
theorem writable_reread {v : Json} (hv : Writable v) (hg : ∀ bits, Finite bits → Finite (g bits)) :
  Writable (reread g v)
  := by
  induction hv with
  | arr vs h ih =>
    rw [reread_arr]
    refine .arr _ fun v hv => ?_
    obtain ⟨w, hw, rfl⟩ := List.mem_map.1 hv
    exact ih w hw
  | obj ms h ih =>
    rw [reread_obj]
    refine .obj _ fun m hm => ?_
    obtain hm | hm := mem_insertMembers hm
    · cases hm
    · obtain ⟨n, hn, rfl⟩ := List.mem_map.1 hm
      exact ih n hn
  | null => exact .null
  | bool b => exact .bool b
  | num n hmin hmax => exact .num n hmin hmax
  | double bits h => exact .double _ (hg bits h)
  | str s => exact .str s

/-! ### Depth of what is read -/

theorem depthElems_le {vs : List Json} {n : Nat} (hn : 1 ≤ n) (h : ∀ v ∈ vs, v.depth ≤ n) :
  depthElems vs ≤ n
  := by
  induction vs with
  | nil => exact hn
  | cons v vs ih =>
    exact max_le (h v List.mem_cons_self) (ih fun w hw => h w (List.mem_cons_of_mem v hw))

theorem depthMembers_le {ms : List (String × Json)} {n : Nat} (hn : 1 ≤ n)
    (h : ∀ m ∈ ms, m.2.depth ≤ n) :
  depthMembers ms ≤ n
  := by
  induction ms with
  | nil => exact hn
  | cons m ms ih =>
    exact max_le (h m List.mem_cons_self) (ih fun n hn => h n (List.mem_cons_of_mem m hn))

/-- A value that is read again is not deeper than it was. -/
theorem depth_reread (v : Json) :
  (reread g v).depth ≤ v.depth
  := by
  induction v using Json.induction with
  | arr vs ih =>
    rw [reread_arr]
    simp only [depth, Nat.add_le_add_iff_right]
    refine depthElems_le (one_le_depthElems vs) fun v hv => ?_
    obtain ⟨w, hw, rfl⟩ := List.mem_map.1 hv
    exact (ih w hw).trans (depth_le_elems hw)
  | obj ms ih =>
    rw [reread_obj]
    simp only [depth, Nat.add_le_add_iff_right]
    refine depthMembers_le (one_le_depthMembers ms) fun m hm => ?_
    obtain hm | hm := mem_insertMembers hm
    · cases hm
    · obtain ⟨n, hn, rfl⟩ := List.mem_map.1 hm
      exact (ih n hn).trans (depth_le_members hn)
  | _ => exact le_rfl

theorem depth_insertMember (m : String × Json) (ms : List (String × Json)) :
  (obj (insertMember m ms)).depth ≤ max (obj ms).depth (m.2.depth + 1)
  := by
  have hmembers : depthMembers (insertMember m ms) ≤ max (depthMembers ms) m.2.depth := by
    refine depthMembers_le ((one_le_depthMembers ms).trans (le_max_left ..)) fun n hn => ?_
    obtain rfl | hn := mem_insertMember hn
    · exact le_max_right ..
    · exact (depth_le_members hn).trans (le_max_left ..)
  simp only [depth]
  omega

/-! ### Records -/

/-- The members of a record: its parts that are there. -/
def members (parts : List (String × Option Json)) : List (String × Json) :=
  parts.filterMap fun p => p.2.map fun v => (p.1, v)

section

variable {parts : List (String × Option Json)}

theorem mem_members {m : String × Json} :
  m ∈ members parts ↔ (m.1, some m.2) ∈ parts
  := by
  simp only [members, List.mem_filterMap, Option.map_eq_some_iff]
  constructor
  · rintro ⟨⟨name, v⟩, hp, w, rfl, rfl⟩
    exact hp
  · intro h
    exact ⟨_, h, m.2, rfl, rfl⟩

theorem sublist_members (parts : List (String × Option Json)) :
  ((members parts).map Prod.fst).Sublist (parts.map Prod.fst)
  := by
  induction parts with
  | nil => exact .slnil
  | cons p parts ih =>
    obtain ⟨name, v⟩ := p
    cases v with
    | none => exact ih.cons name
    | some v => exact ih.cons_cons name

/-- What holds of the parts holds of the members. -/
theorem forall_members {P : Json → Prop} (h : ∀ p ∈ parts, ∀ v ∈ p.2, P v) :
  ∀ m ∈ members parts, P m.2
  :=
  fun m hm => h _ (mem_members.1 hm) m.2 rfl

/-- A field is decoded from its part, if it is there. -/
theorem field_members {α : Type} (names : List String) (missing dec : Json → Option α)
    (hparts : (parts.map Prod.fst).Nodup) {name : String} {v : Option Json} (h : (name, v) ∈ parts) :
  field names missing dec name (.obj (members parts)) = v.elim (missing (.obj (members parts))) dec
  := by
  cases v with
  | some v => exact field_of_mem ((sublist_members parts).nodup hparts) (mem_members.2 h)
  | none =>
    refine field_of_not_mem fun hmem => ?_
    obtain ⟨m, hm, rfl⟩ := List.mem_map.1 hmem
    have heq := List.inj_on_of_nodup_map hparts (mem_members.1 hm) h rfl
    cases heq

end

/-! ### Values without doubles -/

/-- A value without doubles that can be written, and is nested so deep. -/
structure Plain (n : Nat) (v : Json) : Prop where
  writable : v.Writable
  depth_le : v.depth ≤ n
  mapDoubles_eq : ∀ g, v.mapDoubles g = v

theorem Plain.mono {m n : Nat} {v : Json} (h : Plain m v) (hmn : m ≤ n) :
  Plain n v
  :=
  ⟨h.writable, h.depth_le.trans hmn, h.mapDoubles_eq⟩

theorem plain_bool (b : Bool) :
  Plain 1 (.bool b)
  :=
  ⟨.bool b, le_rfl, fun _ => rfl⟩

theorem plain_num {n : Int} (hmin : -2 ^ 63 ≤ n) (hmax : n < 2 ^ 64) :
  Plain 1 (.num n)
  :=
  ⟨.num n hmin hmax, le_rfl, fun _ => rfl⟩

theorem plain_str (s : String) :
  Plain 1 (.str s)
  :=
  ⟨.str s, le_rfl, fun _ => rfl⟩

theorem plain_arr {n : Nat} (hn : 1 ≤ n) {vs : List Json} (h : ∀ v ∈ vs, Plain n v) :
  Plain (n + 1) (.arr vs)
  where
  writable := .arr vs fun v hv => (h v hv).writable
  depth_le := Nat.succ_le_succ (depthElems_le hn fun v hv => (h v hv).depth_le)
  mapDoubles_eq g := by
    rw [mapDoubles, mapElems_eq, List.map_congr_left fun v hv => (h v hv).mapDoubles_eq g,
      List.map_id']

theorem plain_obj {n : Nat} (hn : 1 ≤ n) {ms : List (String × Json)} (h : ∀ m ∈ ms, Plain n m.2) :
  Plain (n + 1) (.obj ms)
  where
  writable := .obj ms fun m hm => (h m hm).writable
  depth_le := Nat.succ_le_succ (depthMembers_le hn fun m hm => (h m hm).depth_le)
  mapDoubles_eq g := by
    have hms : ms.map (fun m => (m.1, m.2.mapDoubles g)) = ms.map id :=
      List.map_congr_left fun m hm => Prod.ext rfl ((h m hm).mapDoubles_eq g)
    rw [mapDoubles, mapMembers_eq, hms, List.map_id]

/-- A plain value is read back as it was written. -/
theorem Plain.readBytes {st : Style} (hst : st.Lawful) {n : Nat} {v : Json} (h : Plain n v) :
  readBytes st.doubles.parse n (toBytes (write st 0 v)) = some v
  := by
  rw [readBytes_write hst h.writable h.depth_le, h.mapDoubles_eq]

end Json
