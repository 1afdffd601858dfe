import Mcfreeze.Server.Responses
import Mathlib.Data.List.DropRight

/-!
# The client of the node agent's pages

`memcacheGet` and `parseMetaGetResponse` (`nodeagent/ui/memcache.go`), which ask the server
for one key.  Strings are byte strings.  A buffered reader is the list of the pieces in
which the rest of its stream arrives.
-/

open Streaming

namespace Server

/-! ### The request -/

/-- The request that `memcacheGet` sends for a key, unless it refuses the key. -/
def mgRequest (key : Bytes) : Except String Bytes :=
  if key.any fun c => c == 32 || c == 13 || c == 10 then
    .error "invalid key: contains space or control characters"
  else if key = [] then .error "invalid key: empty"
  else .ok (ascii "mg " ++ key ++ ascii " v" ++ crlfBytes)

/-- A request is for a key without blanks and line ends, and names it. -/
theorem mgRequest_eq_ok {key req : Bytes} (h : mgRequest key = .ok req) :
  key ≠ [] ∧ (∀ c ∈ key, c ≠ 32 ∧ c ≠ 13 ∧ c ≠ 10)
    ∧ req = ascii "mg" ++ ([32] ++ (key ++ (32 :: 118 :: crlfBytes)))
  := by
  rw [mgRequest] at h
  split at h
  · simp at h
  · next hany =>
    split at h
    · simp at h
    · next hne =>
      obtain rfl := Except.ok.inj h
      refine ⟨hne, ?_, ?_⟩
      · intro c hc
        simp only [Bool.not_eq_true, List.any_eq_false, Bool.or_eq_true, beq_iff_eq, not_or] at hany
        exact ⟨(hany c hc).1.1, (hany c hc).1.2, (hany c hc).2⟩
      · simp [ascii]

/-- The server parses the request to the command it is meant to be if the key does not
start with a tab. -/
theorem parseCommand_mgRequest {key req : Bytes} (h : mgRequest key = .ok req)
    (hhead : key.head? ≠ some 9) :
  parseCommand req = (.ok (some (.mg key ⟨true, false, false, false⟩)), [])
  := by
  obtain ⟨hne, hclean, rfl⟩ := mgRequest_eq_ok h
  obtain ⟨c, k, rfl⟩ := List.exists_cons_of_ne_nil hne
  have hc : (c == 32 || c == 9) = false := by
    have hspace := (hclean c List.mem_cons_self).1
    have htab : c ≠ 9 := by simpa using hhead
    simp [hspace, htab]
  have hspace : space1 ([32] ++ (c :: k ++ (32 :: 118 :: crlfBytes)))
      = .done (c :: k ++ (32 :: 118 :: crlfBytes)) [32] :=
    run1_append (by simp) (by simp) hc _
  have htoken : token (c :: k ++ (32 :: 118 :: crlfBytes)) = .done (32 :: 118 :: crlfBytes) (c :: k) := by
    apply run1_append hne _ (by decide)
    intro b hb
    simpa [and_assoc] using hclean b hb
  have hflags : foldMany flagToken MgFlags.setToken .default (32 :: 118 :: crlfBytes)
      = .done crlfBytes ⟨true, false, false, false⟩ := by
    decide
  have hmg : parseMg (ascii "mg" ++ ([32] ++ (c :: k ++ (32 :: 118 :: crlfBytes))))
      = .done [] (.mg (c :: k) ⟨true, false, false, false⟩) := by
    simp only [parseMg, andThen, tag_append, hspace, htoken, hflags]
    rfl
  rw [parseCommand_eq_some_iff, nomParse, orElse, hmg]

/-- The request for a key that the client accepts is parsed to one `mg` command with that
key and the flag `v`, and to its end, exactly if the key does not start with a tab. -/
theorem mgRequest_agrees_iff {key req : Bytes} (h : mgRequest key = .ok req) :
  (∃ flags, parseCommand req = (.ok (some (.mg key flags)), []) ∧ flags.v = true)
    ↔ key.head? ≠ some 9
  := by
  constructor
  · rintro ⟨flags, hparse, -⟩
    exact (Parsed.parsedKey ⟨req, [], hparse⟩).head
  · intro hhead
    exact ⟨_, parseCommand_mgRequest h hhead, rfl⟩

/-- A key with a tab in the middle. -/
theorem mgRequest_agrees_inner_tab :
  ∃ req, mgRequest (ascii "a\tb") = .ok req
    ∧ ∃ flags, parseCommand req = (.ok (some (.mg (ascii "a\tb") flags)), []) ∧ flags.v = true
  := by
  have hreq : mgRequest (ascii "a\tb") = .ok (ascii "mg a\tb v\r\n") := by decide
  refine ⟨_, hreq, (mgRequest_agrees_iff hreq).mpr ?_⟩
  decide

/-- A key that starts with a tab is parsed without it. -/
theorem mgRequest_loses_leading_tab :
  mgRequest (ascii "\tfoo") = .ok (ascii "mg \tfoo v\r\n")
    ∧ parseCommand (ascii "mg \tfoo v\r\n")
      = (.ok (some (.mg (ascii "foo") ⟨true, false, false, false⟩)), [])
    ∧ ¬ ∃ flags, parseCommand (ascii "mg \tfoo v\r\n")
        = (.ok (some (.mg (ascii "\tfoo") flags)), []) ∧ flags.v = true
  := by
  have hparse : parseCommand (ascii "mg \tfoo v\r\n")
      = (.ok (some (.mg (ascii "foo") ⟨true, false, false, false⟩)), []) := by decide
  refine ⟨by decide, hparse, ?_⟩
  rintro ⟨flags, hother, -⟩
  rw [hparse] at hother
  simp [ascii] at hother

/-! ### Fields of a line -/

/-- The six bits of a continuation byte. -/
def continuation (c : UInt8) : Option Nat :=
  if 0x80 ≤ c ∧ c < 0xc0 then some (c.toNat - 0x80) else none

/-- A rune put together from a lead byte and continuation bytes; it has to be the shortest
encoding, not a surrogate, and in range. -/
def assembleRune (lead low : Nat) (conts : List (Option Nat)) : Nat × Nat :=
  let r := conts.foldl (fun acc c => acc.bind fun a => c.map fun d => a * 64 + d) (some lead)
  match r with
  | none => (0xfffd, 1)
  | some r =>
    if low ≤ r ∧ ¬ (0xd800 ≤ r ∧ r < 0xe000) ∧ r ≤ 0x10ffff then (r, conts.length + 1)
    else (0xfffd, 1)

/-- `utf8.DecodeRune`: the first rune and its width; an invalid encoding is a replacement
character of width one. -/
def decodeRune (b : Bytes) : Nat × Nat :=
  match b with
  | [] => (0xfffd, 0)
  | c :: rest =>
    let cont := fun i => (rest[i]?).bind continuation
    if c < 0x80 then (c.toNat, 1)
    else if 0xc0 ≤ c ∧ c < 0xe0 then assembleRune (c.toNat - 0xc0) 0x80 [cont 0]
    else if 0xe0 ≤ c ∧ c < 0xf0 then assembleRune (c.toNat - 0xe0) 0x800 [cont 0, cont 1]
    else if 0xf0 ≤ c ∧ c < 0xf8 then assembleRune (c.toNat - 0xf0) 0x10000 [cont 0, cont 1, cont 2]
    else (0xfffd, 1)

/-- `unicode.IsSpace`. -/
def isSpace (r : Nat) : Bool :=
  (9 ≤ r && r ≤ 13) || r == 0x20 || r == 0x85 || r == 0xa0 || r == 0x1680
    || (0x2000 ≤ r && r ≤ 0x200a) || r == 0x2028 || r == 0x2029 || r == 0x202f || r == 0x205f
    || r == 0x3000

/-- The runes of a string with their bytes. -/
def runes : Nat → Bytes → List (Nat × Bytes)
  | 0, _ => []
  | _, [] => []
  | fuel + 1, c :: b =>
    let (r, width) := decodeRune (c :: b)
    (r, (c :: b).take width) :: runes fuel ((c :: b).drop width)

/-- The fields of the remaining runes, with the bytes of the field that is open. -/
def fieldsOf : Bytes → List (Nat × Bytes) → List Bytes
  | field, [] => if field = [] then [] else [field]
  | field, (r, bytes) :: rest =>
    if isSpace r then
      if field = [] then fieldsOf [] rest else field :: fieldsOf [] rest
    else fieldsOf (field ++ bytes) rest

/-- `strings.Fields`: the runs of runes that are not white space. -/
def fields (s : Bytes) : List Bytes :=
  fieldsOf [] (runes s.length s)

/-- `strings.TrimRight` with the cutset of the two line end bytes. -/
def trimRight (s : Bytes) : Bytes :=
  s.rdropWhile fun c => c == 13 || c == 10

/-- The digits of a decimal number of 64 bits with its sign. -/
def signedDigits (negative : Bool) (digits : Bytes) : Option Int :=
  match readNumber digits with
  | none => none
  | some n =>
    if negative then if n ≤ 2 ^ 63 then some (-(n : Int)) else none
    else if n < 2 ^ 63 then some (n : Int) else none

/-- `strconv.Atoi`. -/
def atoi (s : Bytes) : Option Int :=
  match s with
  | 45 :: digits => signedDigits true digits
  | 43 :: digits => signedDigits false digits
  | digits => signedDigits false digits

/-! ### The response -/

/-- A buffered reader: the pieces in which the rest of the stream arrives. -/
abbrev Reader := List Bytes

/-- `ReadString`: everything up to the first delimiter. -/
def readString (delim : UInt8) : Reader → Option (Bytes × Reader)
  | [] => none
  | piece :: pieces =>
    match piece.dropWhile (· != delim) with
    | [] => (readString delim pieces).map fun r => (piece ++ r.1, r.2)
    | d :: rest => some (piece.takeWhile (· != delim) ++ [d], rest :: pieces)

/-- Fill a buffer of `want` bytes; on the end of the stream, how many were read. -/
def readFull : Nat → Reader → Except Nat (Bytes × Reader)
  | want, [] => if want = 0 then .ok ([], []) else .error 0
  | want, piece :: pieces =>
    if want = 0 then .ok ([], piece :: pieces)
    else if want < piece.length then .ok (piece.take want, piece.drop want :: pieces)
    else
      match readFull (want - piece.length) pieces with
      | .error n => .error (piece.length + n)
      | .ok (buf, rest) => .ok (piece ++ buf, rest)

/-- The errors of a get. -/
inductive GetError where
  | invalidKey (reason : String)
  | exchange (reason : String)
  | readLine
  | kvServer (line : Bytes)
  | unexpected (line : Bytes)
  | malformed (line : Bytes)
  | valueLength (field : Bytes)
  | readValue (n : Nat) (len : Int)
  deriving DecidableEq, Repr

/-- The outcome of a get. -/
inductive GetResult where
  | hit (value : Bytes)
  | miss
  | error (e : GetError)
  | panic
  deriving DecidableEq, Repr

/-- The value of a hit; a buffer or a slice of negative length is a panic.  A buffer that is
larger than the runtime can allocate is one as well, which is no length of a value that a
server holds. -/
def readValue (size : Int) (r : Reader) : GetResult :=
  let len := (size + 2).bmod (2 ^ 64)
  if len < 0 then .panic
  else
    match readFull len.toNat r with
    | .error n => .error (.readValue n len)
    | .ok (buf, _) => if size < 0 then .panic else .hit (buf.take size.toNat)

def parseMetaGetResponse (r : Reader) : GetResult :=
  match readString 10 r with
  | none => .error .readLine
  | some (line, r) =>
    let line := trimRight line
    if line = ascii "EN" then .miss
    else if ascii "SERVER_ERROR" <+: line ∨ ascii "CLIENT_ERROR" <+: line then
      .error (.kvServer line)
    else if ¬ ascii "VA " <+: line then .error (.unexpected line)
    else
      match (fields line)[1]? with
      | none => .error (.malformed line)
      | some field =>
        match atoi field with
        | none => .error (.valueLength field)
        | some size => readValue size r

section

variable {r : Reader} {buf rest line : Bytes}

/-- A line is read up to its first delimiter, however it arrives. -/
theorem readString_of_dropWhile {delim d : UInt8}
    (h : r.flatten.dropWhile (· != delim) = d :: rest) :
  ∃ r', readString delim r = some (r.flatten.takeWhile (· != delim) ++ [d], r') ∧ r'.flatten = rest
  := by
  induction r with
  | nil => simp at h
  | cons piece pieces ih =>
    rw [List.flatten_cons] at h ⊢
    rw [readString]
    cases hdrop : piece.dropWhile (· != delim) with
    | nil =>
      have hall : ∀ c ∈ piece, (c != delim) = true := List.dropWhile_eq_nil_iff.mp hdrop
      rw [List.dropWhile_append_of_pos hall] at h
      obtain ⟨r', hread, hrest⟩ := ih h
      refine ⟨r', ?_, hrest⟩
      rw [List.takeWhile_append_of_pos hall]
      simp only [hread, Option.map_some, List.append_assoc]
    | cons c tail =>
      obtain ⟨hd, ht⟩ := List.dropWhile_append_of_ne_nil
        (show piece.dropWhile (· != delim) ≠ [] by simp [hdrop]) pieces.flatten
      rw [hd, hdrop, List.cons_append] at h
      obtain ⟨rfl, rfl⟩ := List.cons.inj h
      refine ⟨tail :: pieces, ?_, rfl⟩
      rw [ht]

/-- A line is read up to its end, and no further. -/
theorem readString_line (hline : 10 ∉ line) (h : r.flatten = line ++ 10 :: rest) :
  ∃ r', readString 10 r = some (line ++ [10], r') ∧ r'.flatten = rest
  := by
  have hne : ∀ c ∈ line, (c != 10) = true := by
    intro c hc
    rw [bne_iff_ne]
    rintro rfl
    exact hline hc
  have hdrop : r.flatten.dropWhile (· != 10) = 10 :: rest := by
    rw [h, List.dropWhile_append_of_pos hne, List.dropWhile_cons_of_neg (by simp)]
  have htake : r.flatten.takeWhile (· != 10) = line := by
    rw [h, List.takeWhile_append_of_pos hne, List.takeWhile_cons_of_neg (by simp), List.append_nil]
  obtain ⟨r', hread, hrest⟩ := readString_of_dropWhile hdrop
  rw [htake] at hread
  exact ⟨r', hread, hrest⟩

/-- As many bytes are read as were asked for, over any cuts of the stream. -/
theorem readFull_append (h : r.flatten = buf ++ rest) :
  ∃ r', readFull buf.length r = .ok (buf, r')
  := by
  induction r generalizing buf with
  | nil =>
    obtain ⟨rfl, -⟩ := List.append_eq_nil_iff.mp h.symm
    exact ⟨[], rfl⟩
  | cons piece pieces ih =>
    rw [List.flatten_cons] at h
    rw [readFull]
    rcases Nat.eq_zero_or_pos buf.length with hzero | hpos
    · obtain rfl := List.length_eq_zero_iff.mp hzero
      exact ⟨_, rfl⟩
    · rw [if_neg hpos.ne']
      rcases Nat.lt_or_ge buf.length piece.length with hlt | hge
      · rw [if_pos hlt]
        have htake : piece.take buf.length = buf := by
          rw [← List.take_append_of_le_length hlt.le, h, List.take_left]
        rw [htake]
        exact ⟨_, rfl⟩
      · rw [if_neg (Nat.not_lt.mpr hge)]
        obtain ⟨buf', rfl⟩ : ∃ buf', buf = piece ++ buf' := by
          refine ⟨buf.drop piece.length, ?_⟩
          have hpre : piece = buf.take piece.length := by
            rw [← List.take_append_of_le_length hge, ← h, List.take_left]
          rw [← List.take_append_drop piece.length buf, ← hpre]
          simp
        rw [List.append_assoc, List.append_cancel_left_eq] at h
        obtain ⟨r', hread⟩ := ih h
        rw [List.length_append, Nat.add_sub_cancel_left, hread]
        exact ⟨r', rfl⟩

theorem trimRight_line (hcr : 13 ∉ line) (hlf : 10 ∉ line) :
  trimRight (line ++ [13] ++ [10]) = line
  := by
  rw [trimRight, List.rdropWhile_concat_pos _ _ _ (by decide), List.rdropWhile_concat_pos _ _ _ (by decide),
    List.rdropWhile_eq_self_iff]
  intro hne hlast
  have hmem := List.getLast_mem hne
  rcases (by simpa using hlast) with heq | heq
  · exact hcr (heq ▸ hmem)
  · exact hlf (heq ▸ hmem)

end

/-! ### The fields of a header -/

theorem decodeRune_ascii {c : UInt8} (h : c < 0x80) (b : Bytes) :
  decodeRune (c :: b) = (c.toNat, 1)
  := by
  simp only [decodeRune, h, if_true]

/-- A word without blanks goes to its field as a whole. -/
theorem fieldsOf_word {word : Bytes} (hword : ∀ c ∈ word, c < 0x80 ∧ isSpace c.toNat = false)
    (fuel : Nat) (field rest : Bytes) :
  fieldsOf field (runes (word.length + fuel) (word ++ rest)) = fieldsOf (field ++ word) (runes fuel rest)
  := by
  induction word generalizing field with
  | nil => simp
  | cons c word ih =>
    obtain ⟨hascii, hspace⟩ := hword c List.mem_cons_self
    rw [List.length_cons, Nat.succ_add, List.cons_append, runes, decodeRune_ascii hascii]
    simp only [List.take_succ_cons, List.take_zero, List.drop_succ_cons, List.drop_zero, fieldsOf, hspace,
      Bool.false_eq_true, if_false]
    rw [ih fun c' hc' => hword c' (List.mem_cons_of_mem c hc'), List.append_assoc]
    rfl

theorem fieldsOf_space {field : Bytes} (h : field ≠ []) (fuel : Nat) (rest : Bytes) :
  fieldsOf field (runes (fuel + 1) (32 :: rest)) = field :: fieldsOf [] (runes fuel rest)
  := by
  rw [runes, decodeRune_ascii (by decide)]
  simp [fieldsOf, isSpace, h]

/-- A digit is no blank. -/
theorem isSpace_digit {c : UInt8} (h : 48 ≤ c ∧ c ≤ 57) :
  c < 0x80 ∧ isSpace c.toNat = false
  := by
  obtain ⟨hge, hle⟩ := h
  rw [UInt8.le_iff_toNat_le] at hge hle
  simp only [UInt8.reduceToNat] at hge hle
  constructor
  · rw [UInt8.lt_iff_toNat_lt]
    simp only [UInt8.reduceToNat]
    omega
  · simp only [isSpace, Bool.or_eq_false_iff, Bool.and_eq_false_iff, decide_eq_false_iff_not,
      beq_eq_false_iff_ne]
    omega

/-- The second field of a header is the length, whatever the echoed key contains. -/
theorem fields_vaLine (n : Nat) (echo : List Bytes) :
  (fields (vaLine n echo))[1]? = some (decimal n)
  := by
  have hdigits : ∀ c ∈ decimal n, c < 0x80 ∧ isSpace c.toNat = false := fun c hc =>
    isSpace_digit (isDigit_decimal hc)
  have hall : (ascii "VA").all (fun c => c < 0x80 ∧ isSpace c.toNat = false) = true := by decide
  have hva : ∀ c ∈ ascii "VA", c < 0x80 ∧ isSpace c.toNat = false := fun c hc =>
    of_decide_eq_true (List.all_eq_true.mp hall c hc)
  have hline : vaLine n echo
      = ascii "VA" ++ 32 :: (decimal n ++ (echo.map (32 :: ·)).flatten) := rfl
  rw [fields, hline, List.length_append, fieldsOf_word hva, List.length_cons, List.nil_append,
    fieldsOf_space (by decide), List.length_append, fieldsOf_word hdigits, List.nil_append]
  cases echo with
  | nil => simp [runes, fieldsOf, decimal_ne_nil]
  | cons word echo =>
    rw [List.map_cons, List.flatten_cons, List.cons_append, List.length_cons,
      fieldsOf_space (decimal_ne_nil n)]
    rfl

/-- A decimal number is read back. -/
theorem atoi_decimal {n : Nat} (h : n < 2 ^ 63) :
  atoi (decimal n) = some (n : Int)
  := by
  have hsigned : signedDigits false (decimal n) = some (n : Int) := by
    simp only [signedDigits, readNumber_decimal, Bool.false_eq_true, if_false, h, if_true]
  have hdigit : ∀ c ∈ decimal n, 48 ≤ c := fun c hc => (isDigit_decimal hc).1
  unfold atoi
  split
  · next digits heq => exact absurd (hdigit 45 (heq ▸ List.mem_cons_self)) (by decide)
  · next digits heq => exact absurd (hdigit 43 (heq ▸ List.mem_cons_self)) (by decide)
  · exact hsigned

/-! ### The client reads what the server writes -/

section

variable {r : Reader} {rest value key : Bytes} {flags : MgFlags}

/-- A value is read back with its line end. -/
theorem readValue_append (hsize : value.length + 2 < 2 ^ 63)
    (h : r.flatten = value ++ crlfBytes ++ rest) :
  readValue value.length r = .hit value
  := by
  obtain ⟨r', hread⟩ := readFull_append h
  have hlen : ((value.length : Int) + 2).bmod (2 ^ 64) = ((value.length + 2 : Nat) : Int) := by
    rw [Int.bmod_eq_of_le]
    · simp
    · omega
    · omega
  have hbuf : (value ++ crlfBytes).length = value.length + 2 := by simp [crlfBytes]
  rw [hbuf] at hread
  simp only [readValue, hlen]
  rw [if_neg (by omega), Int.toNat_natCast, hread]
  dsimp only
  rw [if_neg (by omega), Int.toNat_natCast, List.take_left]

/-- A hit is read as its value, whatever follows it and however it arrives. -/
theorem parseMetaGetResponse_writeVa (hkey : ParsedKey key)
    (hsize : (writeVa [] value flags key).length < 2 ^ 63)
    (h : r.flatten = writeVa [] value flags key ++ rest) :
  parseMetaGetResponse r = .hit value
  := by
  have hclean := clean_echoOf hkey flags
  have hcr : 13 ∉ vaLine value.length (echoOf flags key) :=
    not_mem_vaLine (by decide) fun word hword hmem => (hclean word hword 13 hmem).2.1 rfl
  have hlf : 10 ∉ vaLine value.length (echoOf flags key) :=
    not_mem_vaLine (by decide) fun word hword hmem => (hclean word hword 10 hmem).2.2 rfl
  have hwritten : writeVa [] value flags key
      = vaLine value.length (echoOf flags key) ++ [13] ++ 10 :: (value ++ crlfBytes) := by
    rw [writeVa_eq]
    simp [Response.encode, vaLine, crlfBytes]
  have hbound : value.length + 2 < 2 ^ 63 := by
    rw [hwritten] at hsize
    simp only [List.length_append, List.length_cons, crlfBytes] at hsize
    omega
  have hflat : r.flatten = vaLine value.length (echoOf flags key) ++ [13]
      ++ 10 :: (value ++ crlfBytes ++ rest) := by
    rw [h, hwritten]
    simp
  obtain ⟨r', hread, hrest⟩ := readString_line (by simpa using hlf) hflat
  have hprefix : ascii "VA " <+: vaLine value.length (echoOf flags key) := List.prefix_append _ _
  have hne : vaLine value.length (echoOf flags key) ≠ ascii "EN" := by
    intro heq
    exact absurd (congrArg List.head? heq) (by simp [vaLine, ascii])
  have herror : ¬ (ascii "SERVER_ERROR" <+: vaLine value.length (echoOf flags key)
      ∨ ascii "CLIENT_ERROR" <+: vaLine value.length (echoOf flags key)) := by
    simp [vaLine, ascii, List.cons_prefix_cons]
  rw [parseMetaGetResponse, hread]
  dsimp only
  rw [trimRight_line hcr hlf, if_neg hne, if_neg herror, if_neg (not_not.mpr hprefix), fields_vaLine]
  dsimp only
  rw [atoi_decimal (by omega)]
  dsimp only
  rw [readValue_append hbound hrest]

/-- The client reads a miss as a miss. -/
theorem parseMetaGetResponse_writeEn (h : r.flatten = writeEn [] ++ rest) :
  parseMetaGetResponse r = .miss
  := by
  have hline : r.flatten = ascii "EN" ++ [13] ++ 10 :: rest := by
    rw [h]
    simp [writeEn, crlfBytes]
  obtain ⟨r', hread, -⟩ := readString_line (by decide) hline
  have htrim : trimRight (ascii "EN" ++ [13] ++ [10]) = ascii "EN" := by decide
  rw [parseMetaGetResponse, hread]
  dsimp only
  rw [htrim, if_pos rfl]

end

/-- The bytes that any parsed commands append are read back, one response at a time, as the
responses to the commands in their order.  The client of the node agent reads a hit as its
value and a miss as a miss, whatever follows and in whatever pieces it arrives; the length
is that of a buffer, so it is below `2 ^ 63`. -/
theorem responses_decodable :
  (∀ steps : List (ConnConfig × Command), (∀ step ∈ steps, Parsed step.2) →
      (∀ step ∈ steps, 13 ∉ step.1.semver ∧ 10 ∉ step.1.semver) →
      readResponses (dispatchAll steps)
        = some (steps.filterMap fun step => responseOf step.1 step.2))
    ∧ (∀ value flags key, Parsed (.mg key flags) → (writeVa [] value flags key).length < 2 ^ 63 →
      ∀ rest r, r.flatten = writeVa [] value flags key ++ rest → parseMetaGetResponse r = .hit value)
    ∧ ∀ rest r, r.flatten = writeEn [] ++ rest → parseMetaGetResponse r = .miss
  := by
  refine ⟨?_, ?_, ?_⟩
  · intro steps hparsed hsemver
    apply readResponses_dispatchAll hparsed
    intro step hstep
    exact (hsemver step hstep).1
  · intro value flags key hparsed hsize rest r h
    apply parseMetaGetResponse_writeVa hparsed.parsedKey hsize h
  · intro rest r h
    apply parseMetaGetResponse_writeEn h

/-- A value that looks like responses, under a key with a tab that is echoed. -/
theorem imitating_value_decodes :
  readResponses (dispatchAll
      [(⟨fun _ => some (.hit (ascii "EN\r\nVA 1\r\n")), ascii "1.0", 7⟩,
          .mg (ascii "a\tb") ⟨true, true, false, true⟩),
        (⟨fun _ => none, ascii "1.0", 7⟩, .version)])
    = some [.va (ascii "EN\r\nVA 1\r\n") [ascii "ka\tb", ascii "t-1"], .version (ascii "1.0 gen/7")]
    ∧ parseMetaGetResponse [ascii "VA 10 ka\tb", ascii " t-1\r\nEN\r\nV", ascii "A 1\r\n\r\nEN\r\n"]
      = .hit (ascii "EN\r\nVA 1\r\n")
  := by
  have hmg : Parsed (.mg (ascii "a\tb") ⟨true, true, false, true⟩) :=
    ⟨ascii "mg a\tb v t k\r\n", [], by decide⟩
  have hversion : Parsed .version := ⟨ascii "version\r\n", [], by decide⟩
  constructor
  · apply responses_decodable.1
    · simp [hmg, hversion]
    · simp [ascii]
  · apply responses_decodable.2.1 _ _ _ hmg (by decide) (ascii "EN\r\n")
    decide

end Server
