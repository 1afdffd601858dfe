import Mcfreeze.Lib.Bytes
import Mcfreeze.Lib.Json
import Mathlib.Data.String.Basic

/-!
# JSON texts

A reader of JSON texts in the manner of a strict parser: white space is the four characters
of the standard, strings may not contain control characters, surrogates come in pairs,
numbers have no leading zeros, there are no trailing commas, and values are nested only so
deep.  A writer is given by how it escapes characters and by the white space that it puts
between the parts of a value.

What a writer writes is read back, as long as its escapes are read as the characters they
stand for, and its values are not nested too deep.
-/

namespace Json

/-! ### Strings -/

/-- The value of a hexadecimal digit. -/
def hexValue (c : Char) : Option Nat :=
  if '0' ≤ c ∧ c ≤ '9' then some (c.toNat - 48)
  else if 'a' ≤ c ∧ c ≤ 'f' then some (c.toNat - 87)
  else if 'A' ≤ c ∧ c ≤ 'F' then some (c.toNat - 55)
  else none

/-- Four hexadecimal digits. -/
def readHex4 : List Char → Option (Nat × List Char)
  | a :: b :: c :: d :: rest =>
    match hexValue a, hexValue b, hexValue c, hexValue d with
    | some a, some b, some c, some d => some (((a * 16 + b) * 16 + c) * 16 + d, rest)
    | _, _, _, _ => none
  | _ => none

/-- The second half of a pair of surrogates. -/
def readSurrogate (high : Nat) : List Char → Option (Char × List Char)
  | '\\' :: 'u' :: rest =>
    match readHex4 rest with
    | some (low, rest) =>
      if 0xdc00 ≤ low ∧ low ≤ 0xdfff then
        some (Char.ofNat (0x10000 + (high - 0xd800) * 0x400 + (low - 0xdc00)), rest)
      else none
    | none => none
  | _ => none

/-- What follows a backslash. -/
def readEscape : List Char → Option (Char × List Char)
  | [] => none
  | c :: rest =>
    if c = '"' ∨ c = '\\' ∨ c = '/' then some (c, rest)
    else if c = 'b' then some ('\x08', rest)
    else if c = 'f' then some ('\x0c', rest)
    else if c = 'n' then some ('\n', rest)
    else if c = 'r' then some ('\r', rest)
    else if c = 't' then some ('\t', rest)
    else if c = 'u' then
      match readHex4 rest with
      | none => none
      | some (n, rest) =>
        if 0xdc00 ≤ n ∧ n ≤ 0xdfff then none
        else if 0xd800 ≤ n ∧ n ≤ 0xdbff then readSurrogate n rest
        else some (Char.ofNat n, rest)
    else none

/-- The characters of a string up to the closing quote, at most `fuel` of them. -/
def readString : Nat → List Char → Option (List Char × List Char)
  | 0, _ => none
  | _, [] => none
  | fuel + 1, c :: rest =>
    if c = '"' then some ([], rest)
    else if c = '\\' then
      match readEscape rest with
      | none => none
      | some (c, rest) => (readString fuel rest).map fun r => (c :: r.1, r.2)
    else if c.toNat < 0x20 then none
    else (readString fuel rest).map fun r => (c :: r.1, r.2)

/-! ### Numbers -/

/-- The part of a number before the point. -/
def scanInt : List Char → Option (List Char × List Char)
  | [] => none
  | c :: rest =>
    if c = '0' then
      if (rest.head?.map Char.isDigit).getD false then none else some ([c], rest)
    else if c.isDigit then some (c :: rest.takeWhile Char.isDigit, rest.dropWhile Char.isDigit)
    else none

/-- One digit or more. -/
def scanDigits (s : List Char) : Option (List Char × List Char) :=
  if s.takeWhile Char.isDigit = [] then none
  else some (s.takeWhile Char.isDigit, s.dropWhile Char.isDigit)

/-- The point and the digits after it, if there are any. -/
def scanFrac : List Char → Option (List Char × List Char)
  | '.' :: rest => (scanDigits rest).map fun r => ('.' :: r.1, r.2)
  | s => some ([], s)

/-- The exponent, if there is one. -/
def scanExp : List Char → Option (List Char × List Char)
  | [] => some ([], [])
  | c :: rest =>
    if c = 'e' ∨ c = 'E' then
      match rest with
      | '+' :: rest => (scanDigits rest).map fun r => (c :: '+' :: r.1, r.2)
      | '-' :: rest => (scanDigits rest).map fun r => (c :: '-' :: r.1, r.2)
      | rest => (scanDigits rest).map fun r => (c :: r.1, r.2)
    else some ([], c :: rest)

/-- The sign of a number. -/
def scanSign : List Char → List Char × List Char
  | '-' :: rest => (['-'], rest)
  | s => ([], s)

/-- A number: its text, whether it is written as an integer, and what follows it. -/
def scanNumber (s : List Char) : Option (List Char × Bool × List Char) :=
  (scanInt (scanSign s).2).bind fun (int, s') =>
  (scanFrac s').bind fun (frac, s') =>
  (scanExp s').map fun (exp, s') =>
  ((scanSign s).1 ++ (int ++ (frac ++ exp)), decide (frac = [] ∧ exp = []), s')

/-- The integer that a text of a sign and digits denotes, if it fits 64 bits, signed or not;
a negative zero is no integer. -/
def readInt (text : List Char) : Option Int :=
  let n := Nat.ofDigitChars 10 (scanSign text).2 0
  if (scanSign text).1 = [] then if n < 2 ^ 64 then some n else none
  else if 0 < n ∧ n ≤ 2 ^ 63 then some (-(n : Int)) else none

/-- Read a number; `toDouble` converts those that are not integers, or too large. -/
def readNumber (toDouble : List Char → Option UInt64) (s : List Char) : Option (Json × List Char) :=
  match scanNumber s with
  | none => none
  | some (text, isInt, rest) =>
    match if isInt then readInt text else none with
    | some n => some (.num n, rest)
    | none => (toDouble text).map fun bits => (.double bits, rest)

/-! ### Values -/

def isWs (c : Char) : Bool :=
  c == ' ' || c == '\n' || c == '\t' || c == '\r'

def skipWs (s : List Char) : List Char :=
  s.dropWhile isWs

section

variable (toDouble : List Char → Option UInt64)

mutual

/-- Read a value that may be nested less than `depth` deep. -/
def readValue : Nat → Nat → List Char → Option (Json × List Char)
  | 0, _, _ => none
  | fuel + 1, depth, s =>
    match skipWs s with
    | [] => none
    | c :: rest =>
      if c = '"' then (readString fuel rest).map fun r => (.str (String.ofList r.1), r.2)
      else if c = '[' then
        if depth ≤ 1 then none
        else if (skipWs rest).head? = some ']' then some (.arr [], (skipWs rest).tail)
        else (readElems fuel (depth - 1) rest).map fun r => (.arr r.1, r.2)
      else if c = '\x7b' then
        if depth ≤ 1 then none
        else if (skipWs rest).head? = some '\x7d' then some (.obj [], (skipWs rest).tail)
        else (readMembers fuel (depth - 1) rest).map fun r => (.obj r.1, r.2)
      else if c = 'n' then if rest.take 3 = ['u', 'l', 'l'] then some (.null, rest.drop 3) else none
      else if c = 't' then
        if rest.take 3 = ['r', 'u', 'e'] then some (.bool true, rest.drop 3) else none
      else if c = 'f' then
        if rest.take 4 = ['a', 'l', 's', 'e'] then some (.bool false, rest.drop 4) else none
      else readNumber toDouble (c :: rest)

/-- Read one element or more, and the closing bracket. -/
def readElems : Nat → Nat → List Char → Option (List Json × List Char)
  | 0, _, _ => none
  | fuel + 1, depth, s =>
    match readValue fuel depth s with
    | none => none
    | some (v, rest) =>
      match skipWs rest with
      | [] => none
      | c :: rest =>
        if c = ',' then (readElems fuel depth rest).map fun r => (v :: r.1, r.2)
        else if c = ']' then some ([v], rest)
        else none

/-- Read one member or more, and the closing brace. -/
def readMembers : Nat → Nat → List Char → Option (List (String × Json) × List Char)
  | 0, _, _ => none
  | fuel + 1, depth, s =>
    if (skipWs s).head? = some '"' then
      match readString fuel (skipWs s).tail with
      | none => none
      | some (name, rest) =>
        if (skipWs rest).head? = some ':' then
          match readValue fuel depth (skipWs rest).tail with
          | none => none
          | some (v, rest) =>
            match skipWs rest with
            | [] => none
            | c :: rest =>
              if c = ',' then
                (readMembers fuel depth rest).map fun r => ((String.ofList name, v) :: r.1, r.2)
              else if c = '\x7d' then some ([(String.ofList name, v)], rest)
              else none
        else none
    else none

end

/-- Read a text that is one value. -/
def readText (depth : Nat) (s : List Char) : Option Json :=
  match readValue toDouble (s.length + 1) depth s with
  | none => none
  | some (v, rest) => if skipWs rest = [] then some v else none

/-! ### Bytes -/

/-- The characters that bytes encode. -/
def ofBytes (bytes : Bytes) : Option (List Char) :=
  (String.fromUTF8? ⟨bytes.toArray⟩).map String.toList

def toBytes (s : List Char) : Bytes :=
  (String.ofList s).toUTF8.data.toList

/-- Read bytes that are the text of one value. -/
def readBytes (depth : Nat) (bytes : Bytes) : Option Json :=
  (ofBytes bytes).bind (readText toDouble depth)

end

/-! ### Doubles -/

/-- No more of a number can follow. -/
def Delimited (rest : List Char) : Prop :=
  ∀ c ∈ rest.head?, c.isDigit = false ∧ c ≠ '.' ∧ c ≠ 'e' ∧ c ≠ 'E'

/-- The double is not infinite, and it is a number. -/
def Finite (bits : UInt64) : Prop := bits.toNat / 2 ^ 52 % 2 ^ 11 ≠ 2 ^ 11 - 1

instance (bits : UInt64) : Decidable (Finite bits) := inferInstanceAs (Decidable (_ ≠ _))

/-- The conversions between doubles and texts.  A double that is written is read as a double,
`reread bits`, which is another one where the conversions are not exact. -/
structure Doubles where
  print : UInt64 → List Char
  parse : List Char → Option UInt64
  reread : UInt64 → UInt64
  read_print : ∀ bits, Finite bits → ∀ rest, Delimited rest →
    readNumber parse (print bits ++ rest) = some (.double (reread bits), rest)
  finite_reread : ∀ bits, Finite bits → Finite (reread bits)

/-! ### Writing -/

/-- How a writer writes: the escape of a character, the white space that it starts a part
with which is nested so deep, what stands between a name and its value, and the doubles. -/
structure Style where
  escape : Char → List Char
  newline : Nat → List Char
  colon : List Char
  doubles : Doubles

def writeString (st : Style) (s : String) : List Char :=
  '"' :: (s.toList.flatMap st.escape ++ ['"'])

/-- The digits of an integer with its sign. -/
def writeInt (n : Int) : List Char :=
  if n < 0 then '-' :: Nat.toDigits 10 n.natAbs else Nat.toDigits 10 n.natAbs

mutual

/-- Write a value that is nested `d` deep. -/
def write (st : Style) (d : Nat) : Json → List Char
  | .null => ['n', 'u', 'l', 'l']
  | .bool true => ['t', 'r', 'u', 'e']
  | .bool false => ['f', 'a', 'l', 's', 'e']
  | .num n => writeInt n
  | .double bits => st.doubles.print bits
  | .str s => writeString st s
  | .arr [] => ['[', ']']
  | .arr (v :: vs) =>
    '[' :: (st.newline (d + 1) ++ write st (d + 1) v ++ writeElems st (d + 1) vs ++ st.newline d ++ [']'])
  | .obj [] => ['\x7b', '\x7d']
  | .obj (m :: ms) =>
    '\x7b' :: (st.newline (d + 1) ++ writeMember st (d + 1) m ++ writeMembers st (d + 1) ms
      ++ st.newline d ++ ['\x7d'])

/-- Write the elements after the first one. -/
def writeElems (st : Style) (d : Nat) : List Json → List Char
  | [] => []
  | v :: vs => ',' :: (st.newline d ++ write st d v ++ writeElems st d vs)

def writeMember (st : Style) (d : Nat) : String × Json → List Char
  | (name, v) => writeString st name ++ ':' :: (st.colon ++ write st d v)

/-- Write the members after the first one. -/
def writeMembers (st : Style) (d : Nat) : List (String × Json) → List Char
  | [] => []
  | m :: ms => ',' :: (st.newline d ++ writeMember st d m ++ writeMembers st d ms)

end

/-! ### Depth -/

mutual

/-- How deep a value is nested. -/
def depth : Json → Nat
  | .arr vs => depthElems vs + 1
  | .obj ms => depthMembers ms + 1
  | _ => 1

def depthElems : List Json → Nat
  | [] => 1
  | v :: vs => max v.depth (depthElems vs)

def depthMembers : List (String × Json) → Nat
  | [] => 1
  | (_, v) :: ms => max v.depth (depthMembers ms)

end

theorem depth_le_elems {v : Json} {vs : List Json} (h : v ∈ vs) :
  v.depth ≤ depthElems vs
  := by
  induction vs with
  | nil => cases h
  | cons w vs ih =>
    simp only [depthElems]
    obtain rfl | h := List.mem_cons.1 h
    · exact le_max_left ..
    · exact (ih h).trans (le_max_right ..)

theorem depth_le_members {m : String × Json} {ms : List (String × Json)} (h : m ∈ ms) :
  m.2.depth ≤ depthMembers ms
  := by
  induction ms with
  | nil => cases h
  | cons n ms ih =>
    simp only [depthMembers]
    obtain rfl | h := List.mem_cons.1 h
    · exact le_max_left ..
    · exact (ih h).trans (le_max_right ..)

theorem one_le_depthElems (vs : List Json) :
  1 ≤ depthElems vs
  := by
  induction vs with
  | nil => exact le_rfl
  | cons v vs ih => exact ih.trans (le_max_right ..)

theorem one_le_depthMembers (ms : List (String × Json)) :
  1 ≤ depthMembers ms
  := by
  induction ms with
  | nil => exact le_rfl
  | cons m ms ih => exact ih.trans (le_max_right ..)

/-! ### Replacing doubles -/

mutual

/-- Replace the doubles of a value. -/
def mapDoubles (g : UInt64 → UInt64) : Json → Json
  | .double bits => .double (g bits)
  | .arr vs => .arr (mapElems g vs)
  | .obj ms => .obj (mapMembers g ms)
  | v => v

def mapElems (g : UInt64 → UInt64) : List Json → List Json
  | [] => []
  | v :: vs => v.mapDoubles g :: mapElems g vs

def mapMembers (g : UInt64 → UInt64) : List (String × Json) → List (String × Json)
  | [] => []
  | (name, v) :: ms => (name, v.mapDoubles g) :: mapMembers g ms

end

theorem mapElems_eq (g : UInt64 → UInt64) (vs : List Json) :
  mapElems g vs = vs.map (mapDoubles g)
  := by
  induction vs with
  | nil => simp [mapElems]
  | cons v vs ih => simp [mapElems, ih]

theorem mapMembers_eq (g : UInt64 → UInt64) (ms : List (String × Json)) :
  mapMembers g ms = ms.map fun m => (m.1, m.2.mapDoubles g)
  := by
  induction ms with
  | nil => simp [mapMembers]
  | cons m ms ih => simp [mapMembers, ih]

/-! ### White space -/

/-- All of a text is white space. -/
def Blank (s : List Char) : Prop := ∀ c ∈ s, isWs c

theorem skipWs_blank_append {s : List Char} (h : Blank s) (t : List Char) :
  skipWs (s ++ t) = skipWs t
  := by
  simp only [skipWs, List.dropWhile_append_of_pos h]

theorem skipWs_cons {c : Char} (h : isWs c = false) (t : List Char) :
  skipWs (c :: t) = c :: t
  := by
  simp [skipWs, h]

theorem delimited_nil :
  Delimited []
  := by
  simp [Delimited]

theorem delimited_cons {c : Char} {rest : List Char} (h : c.isDigit = false)
    (h' : c ≠ '.' ∧ c ≠ 'e' ∧ c ≠ 'E') :
  Delimited (c :: rest)
  := by
  simp [Delimited, h, h']

theorem isWs_iff {c : Char} :
  isWs c ↔ c = ' ' ∨ c = '\n' ∨ c = '\t' ∨ c = '\r'
  := by
  simp [isWs, or_assoc]

theorem Blank.delimited {s rest : List Char} (hs : Blank s) (h : Delimited rest) :
  Delimited (s ++ rest)
  := by
  cases s with
  | nil => exact h
  | cons c s =>
    obtain rfl | rfl | rfl | rfl := isWs_iff.1 (hs c (by simp))
    all_goals exact delimited_cons (by decide) (by decide)

/-! ### Reading numbers back -/

/-- The digits of a positive number do not start with a zero. -/
theorem toDigits_head (n : Nat) (h : 0 < n) :
  ∃ c rest, Nat.toDigits 10 n = c :: rest ∧ c ≠ '0'
  := by
  induction n using Nat.strongRecOn with
  | _ n ih =>
    obtain hn | hn := Nat.lt_or_ge n 10
    · refine ⟨n.digitChar, [], Nat.toDigits_of_lt_base hn, ?_⟩
      simp only [ne_eq, Nat.digitChar_eq_zero]
      omega
    · obtain ⟨c, rest, heq, hc⟩ := ih (n / 10) (by omega) (by omega)
      exact ⟨c, rest ++ [(n % 10).digitChar],
        by rw [Nat.toDigits_of_base_le (by decide) hn, heq]; rfl, hc⟩

theorem Delimited.not_digit {rest : List Char} (h : Delimited rest) :
  (rest.head?.map Char.isDigit).getD false = false
  := by
  cases rest with
  | nil => rfl
  | cons c rest => exact (h c rfl).1

/-- The digits of a number are scanned as an integer. -/
theorem scanInt_toDigits (n : Nat) {rest : List Char} (h : Delimited rest) :
  scanInt (Nat.toDigits 10 n ++ rest) = some (Nat.toDigits 10 n, rest)
  := by
  obtain rfl | hn := Nat.eq_zero_or_pos n
  · simp [Nat.toDigits_zero, scanInt, h.not_digit]
  obtain ⟨c, ds, heq, hc⟩ := toDigits_head n hn
  have hd : ∀ d ∈ c :: ds, d.isDigit := fun d hd =>
    Nat.isDigit_of_mem_toDigits (by decide) (by decide) (heq ▸ hd)
  have htake : rest.takeWhile Char.isDigit = [] ∧ rest.dropWhile Char.isDigit = rest := by
    cases rest with
    | nil => exact ⟨rfl, rfl⟩
    | cons r rest => simp [(h r rfl).1]
  have hds : ∀ d ∈ ds, d.isDigit := fun d hd' => hd d (List.mem_cons_of_mem c hd')
  rw [heq, List.cons_append]
  simp only [scanInt, if_neg hc, hd c (by simp), if_true, List.takeWhile_append_of_pos hds,
    List.dropWhile_append_of_pos hds, htake, List.append_nil]

/-- There is no fraction before a delimiter. -/
theorem scanFrac_delimited {rest : List Char} (h : Delimited rest) :
  scanFrac rest = some ([], rest)
  := by
  cases rest with
  | nil => rfl
  | cons c rest =>
    unfold scanFrac
    split
    · rename_i heq
      cases heq
      exact absurd rfl (h '.' rfl).2.1
    · rfl

theorem scanExp_delimited {rest : List Char} (h : Delimited rest) :
  scanExp rest = some ([], rest)
  := by
  cases rest with
  | nil => rfl
  | cons c rest =>
    obtain ⟨-, -, h⟩ := h c rfl
    simp [scanExp, h]

/-- The digits of a number have no sign. -/
theorem scanSign_toDigits (n : Nat) (rest : List Char) :
  scanSign (Nat.toDigits 10 n ++ rest) = ([], Nat.toDigits 10 n ++ rest)
  := by
  obtain ⟨c, ds, heq⟩ := List.exists_cons_of_ne_nil (Nat.toDigits_ne_nil (n := n) (b := 10))
  have hc : c.isDigit :=
    Nat.isDigit_of_mem_toDigits (by decide) (by decide) (heq ▸ List.mem_cons_self)
  rw [heq, List.cons_append]
  unfold scanSign
  split
  · rename_i h
    cases h
    exact absurd hc (by decide)
  · rfl

/-- An integer of 64 bits, signed or not, is read back. -/
theorem readInt_writeInt {n : Int} (hmin : -2 ^ 63 ≤ n) (hmax : n < 2 ^ 64) :
  readInt (writeInt n) = some n
  := by
  have hsign := scanSign_toDigits n.natAbs []
  simp only [List.append_nil] at hsign
  obtain hn | hn := lt_or_ge n 0
  · have hval : 0 < n.natAbs ∧ n.natAbs ≤ 2 ^ 63 := by omega
    simp only [readInt, writeInt, if_pos hn, scanSign, Nat.ofDigitChars_ten_toDigits, if_pos hval,
      List.cons_ne_nil, if_false]
    congr 1
    omega
  · have hval : n.natAbs < 2 ^ 64 := by omega
    simp only [readInt, writeInt, if_neg (not_lt.2 hn), hsign, Nat.ofDigitChars_ten_toDigits,
      if_pos hval, if_true]
    congr 1
    omega

theorem readNumber_writeInt (toDouble : List Char → Option UInt64) {n : Int}
    (hmin : -2 ^ 63 ≤ n) (hmax : n < 2 ^ 64) {rest : List Char} (h : Delimited rest) :
  readNumber toDouble (writeInt n ++ rest) = some (.num n, rest)
  := by
  have hscan : scanNumber (writeInt n ++ rest) = some (writeInt n, true, rest) := by
    unfold scanNumber writeInt
    split
    · simp [scanSign, scanInt_toDigits _ h, scanFrac_delimited h, scanExp_delimited h]
    · simp [scanSign_toDigits, scanInt_toDigits _ h, scanFrac_delimited h, scanExp_delimited h]
  simp only [readNumber, hscan, if_true, readInt_writeInt hmin hmax]

/-- A number starts with its sign or a digit. -/
theorem readNumber_head {toDouble : List Char → Option UInt64} {s : List Char}
    {r : Json × List Char} (h : readNumber toDouble s = some r) :
  ∃ c rest, s = c :: rest ∧ (c = '-' ∨ c.isDigit)
  := by
  cases s with
  | nil => simp [readNumber, scanNumber, scanSign, scanInt] at h
  | cons c rest =>
    refine ⟨c, rest, rfl, ?_⟩
    by_contra hc
    obtain ⟨hminus, hdigit⟩ := not_or.1 hc
    have hzero : c ≠ '0' := by
      rintro rfl
      exact hdigit (by decide)
    have hsign : scanSign (c :: rest) = ([], c :: rest) := by
      unfold scanSign
      split
      · rename_i heq
        cases heq
        exact absurd rfl hminus
      · rfl
    have hint : scanInt (c :: rest) = none := by
      simp only [scanInt, if_neg hzero, if_neg hdigit]
    simp [readNumber, scanNumber, hsign, hint] at h

/-! ### Reading values back -/

/-- The escapes of a writer are read as the characters they stand for, and it puts nothing
but white space between the parts of a value. -/
structure Style.Lawful (st : Style) : Prop where
  escape : ∀ c fuel rest,
    readString (fuel + 1) (st.escape c ++ rest)
      = (readString fuel rest).map fun r => (c :: r.1, r.2)
  newline : ∀ d, Blank (st.newline d)
  colon : Blank st.colon

/-- The values that are written and read back: their integers fit 64 bits, and their doubles
are finite. -/
inductive Writable : Json → Prop where
  | null : Writable .null
  | bool (b : Bool) : Writable (.bool b)
  | num (n : Int) (hmin : -2 ^ 63 ≤ n) (hmax : n < 2 ^ 64) : Writable (.num n)
  | double (bits : UInt64) (h : Finite bits) : Writable (.double bits)
  | str (s : String) : Writable (.str s)
  | arr (vs : List Json) (h : ∀ v ∈ vs, Writable v) : Writable (.arr vs)
  | obj (ms : List (String × Json)) (h : ∀ m ∈ ms, Writable m.2) : Writable (.obj ms)

variable {toDouble : List Char → Option UInt64} {st : Style}

theorem Style.Lawful.one_le_escape (hst : st.Lawful) (c : Char) :
  1 ≤ (st.escape c).length
  := by
  by_contra hc
  have hnil : st.escape c = [] := List.length_eq_zero_iff.1 (by omega)
  have h := hst.escape c 0 ['"']
  rw [hnil] at h
  simp [readString] at h

theorem Style.Lawful.length_le (hst : st.Lawful) (cs : List Char) :
  cs.length ≤ (cs.flatMap st.escape).length
  := by
  induction cs with
  | nil => exact le_rfl
  | cons c cs ih =>
    have := hst.one_le_escape c
    simp only [List.flatMap_cons, List.length_append, List.length_cons]
    omega

/-- An escaped string is read back. -/
theorem readString_escaped (hst : st.Lawful) (cs : List Char) {fuel : Nat}
    (hfuel : cs.length + 1 ≤ fuel) (rest : List Char) :
  readString fuel (cs.flatMap st.escape ++ '"' :: rest) = some (cs, rest)
  := by
  induction cs generalizing fuel with
  | nil =>
    obtain ⟨fuel, rfl⟩ := Nat.exists_eq_add_of_le' hfuel
    simp [readString]
  | cons c cs ih =>
    obtain ⟨fuel, rfl⟩ := Nat.exists_eq_add_of_le' hfuel
    have hfuel : cs.length + 1 ≤ fuel + (cs.length + 1) := by omega
    rw [List.length_cons, ← Nat.add_assoc, List.flatMap_cons, List.append_assoc, hst.escape,
      ih hfuel]
    rfl

theorem readString_writeString (hst : st.Lawful) (s : String) (fuel : Nat)
    (hfuel : (writeString st s).length ≤ fuel + 1) (rest : List Char) :
  readString fuel ((writeString st s).tail ++ rest) = some (s.toList, rest)
  := by
  have hlen := hst.length_le s.toList
  simp only [writeString, List.length_cons, List.length_append, List.length_nil] at hfuel
  simp only [writeString, List.tail_cons, List.append_assoc, List.singleton_append]
  exact readString_escaped hst s.toList (by omega) rest

/-- What is read back of a value, wherever it is written. -/
def ReadsBack (st : Style) (v : Json) : Prop :=
  ∀ d fuel dep rest, v.depth ≤ dep → (write st d v).length + 1 ≤ fuel → Delimited rest →
    readValue st.doubles.parse fuel dep (write st d v ++ rest)
      = some (v.mapDoubles st.doubles.reread, rest)

theorem readValue_blank {s : List Char} (hs : Blank s) (fuel dep : Nat) (t : List Char) :
  readValue toDouble fuel dep (s ++ t) = readValue toDouble fuel dep t
  := by
  cases fuel with
  | zero => simp only [readValue]
  | succ fuel => simp only [readValue, skipWs_blank_append hs]

theorem readElems_blank {s : List Char} (hs : Blank s) (fuel dep : Nat) (t : List Char) :
  readElems toDouble fuel dep (s ++ t) = readElems toDouble fuel dep t
  := by
  cases fuel with
  | zero => simp only [readElems]
  | succ fuel => simp only [readElems, readValue_blank hs]

theorem readMembers_blank {s : List Char} (hs : Blank s) (fuel dep : Nat) (t : List Char) :
  readMembers toDouble fuel dep (s ++ t) = readMembers toDouble fuel dep t
  := by
  cases fuel with
  | zero => simp only [readMembers]
  | succ fuel => simp only [readMembers, skipWs_blank_append hs]

/-- An element is read, and then what follows it. -/
theorem readElems_cons {dep fuel : Nat} {s after rest : List Char} {v : Json} {c : Char}
    (hread : readValue toDouble fuel dep s = some (v, after)) (hafter : skipWs after = c :: rest) :
  readElems toDouble (fuel + 1) dep s
    = if c = ',' then (readElems toDouble fuel dep rest).map fun r => (v :: r.1, r.2)
      else if c = ']' then some ([v], rest)
      else none
  := by
  simp only [readElems, hread, hafter]

/-- The elements of an array are read back if each of them is. -/
theorem readElems_write (hst : st.Lawful) (d dep : Nat) {blank : List Char} (hblank : Blank blank)
    (rest : List Char) {v : Json} {vs : List Json} (h : ∀ w ∈ v :: vs, ReadsBack st w)
    (hdep : depthElems (v :: vs) ≤ dep) (fuel : Nat)
    (hfuel : (write st d v).length + (writeElems st d vs).length + 1 ≤ fuel) :
  readElems st.doubles.parse (fuel + 1) dep
      (write st d v ++ (writeElems st d vs ++ (blank ++ ']' :: rest)))
    = some ((v :: vs).map (mapDoubles st.doubles.reread), rest)
  := by
  have hv := h v (by simp) d fuel dep
  have hvdep : v.depth ≤ dep := (depth_le_elems (by simp)).trans hdep
  induction vs generalizing v fuel with
  | nil =>
    have hread := hv (blank ++ ']' :: rest) hvdep (by omega)
      (hblank.delimited (delimited_cons (by decide) (by decide)))
    rw [writeElems, List.nil_append,
      readElems_cons hread ((skipWs_blank_append hblank _).trans (skipWs_cons rfl rest))]
    rfl
  | cons w vs ih =>
    simp only [writeElems, List.length_cons, List.length_append] at hfuel
    obtain ⟨fuel, rfl⟩ := Nat.exists_eq_succ_of_ne_zero (show fuel ≠ 0 by omega)
    have hcons : writeElems st d (w :: vs) ++ (blank ++ ']' :: rest)
        = ',' :: (st.newline d
          ++ (write st d w ++ (writeElems st d vs ++ (blank ++ ']' :: rest)))) := by
      simp only [writeElems, List.cons_append, List.append_assoc]
    have hread after := hv (',' :: after) hvdep (by omega) (delimited_cons (by decide) (by decide))
    have hws : ∀ w' ∈ w :: vs, ReadsBack st w' := fun w' hw => h w' (by simp [hw])
    have hwdep : depthElems (w :: vs) ≤ dep := (le_max_right ..).trans hdep
    have hrest := ih hws hwdep fuel (by omega) (hws w (by simp) d fuel dep)
      ((depth_le_elems (by simp)).trans hwdep)
    rw [hcons, readElems_cons (hread _) (skipWs_cons rfl _), if_pos rfl,
      readElems_blank (hst.newline d), hrest]
    rfl

theorem writeMember_eq (st : Style) (d : Nat) (m : String × Json) :
  writeMember st d m = writeString st m.1 ++ ':' :: (st.colon ++ write st d m.2)
  := by
  rw [writeMember]

theorem length_writeMember (st : Style) (d : Nat) (m : String × Json) :
  (writeMember st d m).length
    = (writeString st m.1).length + 1 + st.colon.length + (write st d m.2).length
  := by
  simp only [writeMember_eq, List.length_append, List.length_cons]
  omega

/-- A member is read, and then what follows it. -/
theorem readMembers_writeMember (hst : st.Lawful) {d dep fuel : Nat} {m : String × Json}
    (hfuel : (writeString st m.1).length ≤ fuel + 1) {after : List Char}
    {v : Json}
    (hread : readValue toDouble fuel dep (write st d m.2 ++ after) = some (v, after))
    {c : Char} {rest : List Char} (hafter : skipWs after = c :: rest) :
  readMembers toDouble (fuel + 1) dep (writeMember st d m ++ after)
    = if c = ',' then (readMembers toDouble fuel dep rest).map fun r => ((m.1, v) :: r.1, r.2)
      else if c = '\x7d' then some ([(m.1, v)], rest)
      else none
  := by
  have hname := readString_writeString hst m.1 fuel hfuel (':' :: (st.colon ++ write st d m.2) ++ after)
  have hquote : skipWs (writeMember st d m ++ after)
      = '"' :: ((writeString st m.1).tail ++ (':' :: (st.colon ++ write st d m.2) ++ after)) := by
    simp only [writeMember_eq, writeString, List.cons_append, List.append_assoc, List.tail_cons]
    exact skipWs_cons rfl _
  have hcolon : skipWs (':' :: (st.colon ++ write st d m.2) ++ after)
      = ':' :: (st.colon ++ (write st d m.2 ++ after)) := by
    simp only [List.cons_append, List.append_assoc]
    exact skipWs_cons rfl _
  simp only [readMembers, hquote, List.head?_cons, List.tail_cons, if_true, hname, hcolon,
    readValue_blank hst.colon, hread, hafter, String.ofList_toList]

/-- The members of an object are read back if the value of each of them is. -/
theorem readMembers_write (hst : st.Lawful) (d dep : Nat) {blank : List Char}
    (hblank : Blank blank) (rest : List Char) {m : String × Json} {ms : List (String × Json)}
    (h : ∀ m' ∈ m :: ms, ReadsBack st m'.2) (hdep : depthMembers (m :: ms) ≤ dep)
    (fuel : Nat)
    (hfuel : (writeMember st d m).length + (writeMembers st d ms).length + 1 ≤ fuel) :
  readMembers st.doubles.parse (fuel + 1) dep
      (writeMember st d m ++ (writeMembers st d ms ++ (blank ++ '\x7d' :: rest)))
    = some ((m :: ms).map fun m' => (m'.1, m'.2.mapDoubles st.doubles.reread), rest)
  := by
  have hv := h m (by simp) d fuel dep
  have hvdep : m.2.depth ≤ dep := (depth_le_members (by simp)).trans hdep
  have hlen := length_writeMember st d m
  induction ms generalizing m fuel with
  | nil =>
    have hread := hv (blank ++ '\x7d' :: rest) hvdep (by omega)
      (hblank.delimited (delimited_cons (by decide) (by decide)))
    rw [writeMembers, List.nil_append, readMembers_writeMember hst (by omega) hread
      ((skipWs_blank_append hblank _).trans (skipWs_cons rfl rest))]
    rfl
  | cons n ms ih =>
    simp only [writeMembers, List.length_cons, List.length_append] at hfuel
    obtain ⟨fuel, rfl⟩ := Nat.exists_eq_succ_of_ne_zero (show fuel ≠ 0 by omega)
    have hcons : writeMembers st d (n :: ms) ++ (blank ++ '\x7d' :: rest)
        = ',' :: (st.newline d
          ++ (writeMember st d n ++ (writeMembers st d ms ++ (blank ++ '\x7d' :: rest)))) := by
      simp only [writeMembers, List.cons_append, List.append_assoc]
    have hread after := hv (',' :: after) hvdep (by omega) (delimited_cons (by decide) (by decide))
    have hms : ∀ m' ∈ n :: ms, ReadsBack st m'.2 := fun m' hm => h m' (by simp [hm])
    have hmsdep : depthMembers (n :: ms) ≤ dep := (le_max_right ..).trans hdep
    have hrest := ih hms hmsdep fuel (by omega) (hms n (by simp) d fuel dep)
      ((depth_le_members (by simp)).trans hmsdep) (length_writeMember st d n)
    rw [hcons, readMembers_writeMember hst (by omega) (hread _) (skipWs_cons rfl _), if_pos rfl,
      readMembers_blank (hst.newline d), hrest]
    rfl

/-- What can be read as a number is read as one. -/
theorem readValue_number {fuel dep : Nat} {s : List Char} {r : Json × List Char}
    (h : readNumber toDouble s = some r) :
  readValue toDouble (fuel + 1) dep s = some r
  := by
  obtain ⟨c, rest, rfl, hc⟩ := readNumber_head h
  have hne : isWs c = false ∧ c ≠ '"' ∧ c ≠ '[' ∧ c ≠ '\x7b' ∧ c ≠ 'n' ∧ c ≠ 't' ∧ c ≠ 'f' := by
    obtain rfl | hc := hc
    · decide
    · refine ⟨?_, ?_, ?_, ?_, ?_, ?_, ?_⟩
      · rw [Bool.eq_false_iff]
        intro hws
        obtain rfl | rfl | rfl | rfl := isWs_iff.1 hws
        all_goals exact absurd hc (by decide)
      all_goals
        rintro rfl
        exact absurd hc (by decide)
  obtain ⟨hws, h1, h2, h3, h4, h5, h6⟩ := hne
  simp only [readValue, skipWs_cons hws, if_neg h1, if_neg h2, if_neg h3, if_neg h4, if_neg h5,
    if_neg h6, h]

/-- A value does not start with a closing bracket. -/
theorem readValue_head {fuel dep : Nat} {s : List Char} {r : Json × List Char}
    (h : readValue toDouble fuel dep s = some r) :
  (skipWs s).head? ≠ some ']'
  := by
  intro hhead
  obtain ⟨rest, hrest⟩ := List.head?_eq_some_iff.1 hhead
  cases fuel with
  | zero => simp [readValue] at h
  | succ fuel =>
    have hnum : readNumber toDouble (']' :: rest) = some r := by
      simpa [readValue, hrest] using h
    obtain ⟨c, cs, heq, hc⟩ := readNumber_head hnum
    cases heq
    exact absurd hc (by decide)

/-- An array is read when its elements are. -/
theorem readValue_arr {fuel dep : Nat} (hdep : 1 < dep) {s rest : List Char} {vs : List Json}
    (h : readElems toDouble fuel (dep - 1) s = some (vs, rest)) :
  readValue toDouble (fuel + 1) dep ('[' :: s) = some (.arr vs, rest)
  := by
  have hhead : (skipWs s).head? ≠ some ']' := by
    cases fuel with
    | zero => simp [readElems] at h
    | succ fuel =>
      cases hread : readValue toDouble fuel (dep - 1) s with
      | none => simp [readElems, hread] at h
      | some r => exact readValue_head hread
  simp [readValue, skipWs_cons (show isWs '[' = false from rfl), hhead, h, not_le.2 hdep]

/-- An object is read when its members are. -/
theorem readValue_obj {fuel dep : Nat} (hdep : 1 < dep) {s rest : List Char}
    {ms : List (String × Json)} (h : readMembers toDouble fuel (dep - 1) s = some (ms, rest)) :
  readValue toDouble (fuel + 1) dep ('\x7b' :: s) = some (.obj ms, rest)
  := by
  have hhead : (skipWs s).head? ≠ some '\x7d' := by
    cases fuel with
    | zero => simp [readMembers] at h
    | succ fuel =>
      intro hclose
      simp [readMembers, hclose] at h
  simp [readValue, skipWs_cons (show isWs '\x7b' = false from rfl), hhead, h, not_le.2 hdep]

theorem ReadsBack.of_succ {v : Json}
    (h : ∀ d fuel dep rest, v.depth ≤ dep → (write st d v).length ≤ fuel → Delimited rest →
      readValue st.doubles.parse (fuel + 1) dep (write st d v ++ rest)
        = some (v.mapDoubles st.doubles.reread, rest)) :
  ReadsBack st v
  := by
  intro d fuel dep rest hdep hfuel hrest
  obtain ⟨fuel, rfl⟩ := Nat.exists_eq_succ_of_ne_zero (show fuel ≠ 0 by omega)
  exact h d fuel dep rest hdep (by omega) hrest

/-- A value that is written is read back, whatever delimits it. -/
theorem readsBack_write (hst : st.Lawful) {v : Json} (hv : Writable v) :
  ReadsBack st v
  := by
  induction hv with
  | null =>
    apply ReadsBack.of_succ
    intro d fuel dep rest hdep hfuel hrest
    simp [readValue, write, mapDoubles, skipWs_cons (show isWs 'n' = false from rfl)]
  | bool b =>
    apply ReadsBack.of_succ
    intro d fuel dep rest hdep hfuel hrest
    cases b
    · simp [readValue, write, mapDoubles, skipWs_cons (show isWs 'f' = false from rfl)]
    · simp [readValue, write, mapDoubles, skipWs_cons (show isWs 't' = false from rfl)]
  | num n hmin hmax =>
    apply ReadsBack.of_succ
    intro d fuel dep rest hdep hfuel hrest
    exact readValue_number (readNumber_writeInt st.doubles.parse hmin hmax hrest)
  | double bits h =>
    apply ReadsBack.of_succ
    intro d fuel dep rest hdep hfuel hrest
    exact readValue_number (st.doubles.read_print bits h rest hrest)
  | str s =>
    apply ReadsBack.of_succ
    intro d fuel dep rest hdep hfuel hrest
    have hread := readString_writeString hst s fuel
      (by simp only [write] at hfuel; omega) rest
    have hquote : write st d (.str s) ++ rest = '"' :: ((writeString st s).tail ++ rest) := by
      simp only [write, writeString, List.cons_append, List.tail_cons]
    simp only [readValue, hquote, skipWs_cons (show isWs '"' = false from rfl), if_true, hread]
    simp [mapDoubles]
  | arr vs h ih =>
    apply ReadsBack.of_succ
    intro d fuel dep rest hdep hfuel hrest
    have hdeep := one_le_depthElems vs
    simp only [depth] at hdep
    cases vs with
    | nil =>
      have hopen : write st d (.arr []) ++ rest = '[' :: ']' :: rest := by simp [write]
      simp [readValue, hopen, mapDoubles, mapElems, skipWs_cons (show isWs '[' = false from rfl),
        skipWs_cons (show isWs ']' = false from rfl), show ¬ dep ≤ 1 by omega]
    | cons v vs =>
      simp only [write, List.length_cons, List.length_append] at hfuel
      obtain ⟨fuel, rfl⟩ := Nat.exists_eq_succ_of_ne_zero (show fuel ≠ 0 by omega)
      have hvs : depthElems (v :: vs) ≤ dep - 1 := by omega
      have hread := readElems_write hst (d + 1) (dep - 1) (hst.newline d) rest ih hvs
        fuel (by omega)
      rw [← readElems_blank (hst.newline (d + 1)), ← mapElems_eq] at hread
      have hval := readValue_arr (by omega) hread
      simpa only [mapDoubles, write, List.cons_append, List.append_assoc, List.nil_append] using hval
  | obj ms h ih =>
    apply ReadsBack.of_succ
    intro d fuel dep rest hdep hfuel hrest
    have hdeep := one_le_depthMembers ms
    simp only [depth] at hdep
    cases ms with
    | nil =>
      have hopen : write st d (.obj []) ++ rest = '\x7b' :: '\x7d' :: rest := by simp [write]
      simp [readValue, hopen, mapDoubles, mapMembers, skipWs_cons (show isWs '\x7b' = false from rfl),
        skipWs_cons (show isWs '\x7d' = false from rfl), show ¬ dep ≤ 1 by omega]
    | cons m ms =>
      simp only [write, List.length_cons, List.length_append] at hfuel
      obtain ⟨fuel, rfl⟩ := Nat.exists_eq_succ_of_ne_zero (show fuel ≠ 0 by omega)
      have hms : depthMembers (m :: ms) ≤ dep - 1 := by omega
      have hread := readMembers_write hst (d + 1) (dep - 1) (hst.newline d) rest ih hms
        fuel (by omega)
      rw [← readMembers_blank (hst.newline (d + 1)), ← mapMembers_eq] at hread
      have hval := readValue_obj (by omega) hread
      simpa only [mapDoubles, write, List.cons_append, List.append_assoc, List.nil_append] using hval

/-- A text that is written is read back. -/
theorem readText_write (hst : st.Lawful) {v : Json} (hv : Writable v) {dep : Nat}
    (hdep : v.depth ≤ dep) :
  readText st.doubles.parse dep (write st 0 v) = some (v.mapDoubles st.doubles.reread)
  := by
  have hread := readsBack_write hst hv 0 _ dep [] hdep le_rfl delimited_nil
  rw [List.append_nil] at hread
  simp only [readText, hread]
  rfl

theorem ofBytes_toBytes (s : List Char) :
  ofBytes (toBytes s) = some s
  := by
  have hv := (String.ofList s).isValidUTF8
  have harr : (⟨(toBytes s).toArray⟩ : ByteArray) = (String.ofList s).toByteArray := by
    simp [toBytes]
  have hof : String.fromUTF8 _ hv = String.ofList s := rfl
  rw [ofBytes, harr, String.fromUTF8?, dif_pos hv, hof, Option.map_some, String.toList_ofList]

/-- The bytes that are written are read back. -/
theorem readBytes_write (hst : st.Lawful) {v : Json} (hv : Writable v) {dep : Nat}
    (hdep : v.depth ≤ dep) :
  readBytes st.doubles.parse dep (toBytes (write st 0 v)) = some (v.mapDoubles st.doubles.reread)
  := by
  rw [readBytes, ofBytes_toBytes]
  exact readText_write hst hv hdep

/-! ### Escapes -/

/-- The letter that a character is escaped with, if it has one. -/
def escapeLetter (c : Char) : Option Char :=
  if c = '"' ∨ c = '\\' then some c
  else if c = '\x08' then some 'b'
  else if c = '\x0c' then some 'f'
  else if c = '\n' then some 'n'
  else if c = '\r' then some 'r'
  else if c = '\t' then some 't'
  else none

def hexDigit (n : Nat) : Char :=
  if n < 10 then Char.ofNat (n + 48) else Char.ofNat (n + 87)

def hexEscape (n : Nat) : List Char :=
  ['\\', 'u', hexDigit (n / 4096 % 16), hexDigit (n / 256 % 16), hexDigit (n / 16 % 16),
    hexDigit (n % 16)]

/-- Escape the quote, the backslash, the control characters and some others. -/
def escapeChar (others : Char → Bool) (c : Char) : List Char :=
  match escapeLetter c with
  | some letter => ['\\', letter]
  | none => if c.toNat < 0x20 ∨ others c then hexEscape c.toNat else [c]

theorem hexValue_hexDigit {n : Nat} (h : n < 16) :
  hexValue (hexDigit n) = some n
  := by
  revert n
  decide

theorem readHex4_hexEscape {n : Nat} (h : n < 0x10000) (rest : List Char) :
  readHex4 ((hexEscape n).drop 2 ++ rest) = some (n, rest)
  := by
  simp only [hexEscape, List.drop_succ_cons, List.drop_zero, List.cons_append, List.nil_append,
    readHex4, hexValue_hexDigit (Nat.mod_lt _ (show 0 < 16 by decide))]
  congr 2
  omega

/-- An escape with a letter is read back. -/
theorem readEscape_letter {c letter : Char} (h : escapeLetter c = some letter) (rest : List Char) :
  readEscape (letter :: rest) = some (c, rest)
  := by
  revert h
  unfold escapeLetter
  split_ifs
  all_goals
    intro h
    cases h
  · simp only [readEscape]
    rw [if_pos (by tauto)]
  all_goals
    subst_vars
    rfl

/-- An escape with four digits is read back. -/
theorem readEscape_hex {c : Char} (h : c.toNat < 0x10000) (rest : List Char) :
  readEscape ((hexEscape c.toNat).tail ++ rest) = some (c, rest)
  := by
  have hread := readHex4_hexEscape h rest
  have hvalid : c.toNat < 0xd800 ∨ 0xdfff < c.toNat := by
    obtain h | h := c.valid
    · exact .inl h
    · exact .inr h.1
  have hlow : ¬ (0xdc00 ≤ c.toNat ∧ c.toNat ≤ 0xdfff) := by omega
  have hhigh : ¬ (0xd800 ≤ c.toNat ∧ c.toNat ≤ 0xdbff) := by omega
  have htail : (hexEscape c.toNat).tail ++ rest = 'u' :: ((hexEscape c.toNat).drop 2 ++ rest) := rfl
  simp [htail, readEscape, hread, hlow, hhigh, Char.ofNat_toNat]

/-- The escape of a character is read as the character. -/
theorem readString_escapeChar {others : Char → Bool}
    (hothers : ∀ c, others c → c.toNat < 0x10000) (c : Char) (fuel : Nat) (rest : List Char) :
  readString (fuel + 1) (escapeChar others c ++ rest)
    = (readString fuel rest).map fun r => (c :: r.1, r.2)
  := by
  unfold escapeChar
  cases hletter : escapeLetter c with
  | some letter => simp [readString, readEscape_letter hletter]
  | none =>
    have hplain : c ≠ '"' ∧ c ≠ '\\' := by
      constructor
      all_goals
        rintro rfl
        simp [escapeLetter] at hletter
    simp only
    split_ifs with hescape
    · have hc : c.toNat < 0x10000 := by
        obtain h | h := hescape
        · omega
        · exact hothers c h
      have hread := readEscape_hex hc rest
      have hcons : hexEscape c.toNat ++ rest = '\\' :: ((hexEscape c.toNat).tail ++ rest) := rfl
      simp [hcons, readString, hread]
    · have hnat : ¬ c.toNat < 0x20 := fun h => hescape (.inl h)
      simp [readString, hplain, hnat]

/-- Everything on one line, without spaces. -/
def compact (others : Char → Bool) (doubles : Doubles) : Style where
  escape := escapeChar others
  newline := fun _ => []
  colon := []
  doubles := doubles

/-- One part on a line, indented by two spaces. -/
def pretty (others : Char → Bool) (doubles : Doubles) : Style where
  escape := escapeChar others
  newline := fun d => '\n' :: List.replicate (2 * d) ' '
  colon := [' ']
  doubles := doubles

theorem compact_lawful {others : Char → Bool} (hothers : ∀ c, others c → c.toNat < 0x10000)
    (doubles : Doubles) :
  (compact others doubles).Lawful where
  escape := readString_escapeChar hothers
  newline := fun _ c h => by cases h
  colon := fun c h => by cases h

/-- What is written in the style of the pretty printers can be read back. -/
theorem pretty_lawful {others : Char → Bool} (hothers : ∀ c, others c → c.toNat < 0x10000)
    (doubles : Doubles) :
  (pretty others doubles).Lawful where
  escape := readString_escapeChar hothers
  newline := fun d c h => by
    obtain rfl | h := List.mem_cons.1 h
    · rfl
    · rw [List.eq_of_mem_replicate h]
      rfl
  colon := fun c h => by
    rw [List.mem_singleton.1 h]
    rfl

/-- Conversions that know one double. -/
def halfDoubles : Doubles where
  print := fun _ => ['0', '.', '5']
  parse := fun _ => some 0x3fe0000000000000
  reread := fun _ => 0x3fe0000000000000
  read_print := by
    intro bits _ rest h
    have htake : rest.takeWhile Char.isDigit = [] ∧ rest.dropWhile Char.isDigit = rest := by
      cases rest with
      | nil => exact ⟨rfl, rfl⟩
      | cons c rest => simp [(h c rfl).1]
    have hfrac : scanFrac ('.' :: '5' :: rest) = some (['.', '5'], rest) := by
      simp [scanFrac, scanDigits, htake, show Char.isDigit '5' = true from rfl]
    have hnumber : scanNumber ('0' :: '.' :: '5' :: rest)
        = some (['0', '.', '5'], false, rest) := by
      simp [scanNumber, scanSign, scanInt, hfrac, scanExp_delimited h,
        show Char.isDigit '.' = false from rfl]
    simp [readNumber, hnumber]
  finite_reread := fun _ _ => by decide

end Json
