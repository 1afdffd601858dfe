import Mcfreeze.Server.Connection

/-!
# Response streams

What a client reads off the bytes that a connection writes.  `readResponse` reads one
response: a line, and behind the line of a hit as many bytes as it says and a line end.
The bytes of the responses to any sequence of parsed commands are read back one after the
other, whatever the values contain, because no header line contains a line end.
-/

open Streaming

namespace Server

/-! ### Reading responses -/

/-- A response as a client reads it: a hit with its value and the flags that are echoed, a
miss, an error, or a version. -/
inductive Response where
  | va (value : Bytes) (echo : List Bytes)
  | en
  | serverError (msg : Bytes)
  | version (text : Bytes)
  deriving DecidableEq, Repr

/-- The bytes before the first line end, and those after it. -/
def readLine (b : Bytes) : Option (Bytes × Bytes) :=
  match takeUntil2 13 10 b with
  | .done rest line => some (line, rest.drop 2)
  | .incomplete => none
  | .error _ => none

/-- What follows `t` in `b`. -/
def after (t b : Bytes) : Option Bytes :=
  if t <+: b then some (b.drop t.length) else none

/-- The words of a line, cut at every space. -/
def splitSpaces : Bytes → List Bytes
  | [] => [[]]
  | c :: rest =>
    if c = 32 then [] :: splitSpaces rest
    else
      match splitSpaces rest with
      | [] => [[c]]
      | word :: words => (c :: word) :: words

/-- The number that a word of digits denotes. -/
def digitsValue (digits : Bytes) : Nat :=
  digits.foldl (fun acc c => 10 * acc + (c.toNat - 48)) 0

def readNumber (word : Bytes) : Option Nat :=
  if word ≠ [] ∧ word.all (fun c => 48 ≤ c && c ≤ 57) then some (digitsValue word) else none

/-- The body of a hit: as many bytes as the header says, and a line end. -/
def readBody (n : Nat) (echo : List Bytes) (b : Bytes) : Option (Response × Bytes) :=
  match after crlfBytes (b.drop n) with
  | some rest => some (.va (b.take n) echo, rest)
  | none => none

/-- Read one response off the front of a stream. -/
def readResponse (b : Bytes) : Option (Response × Bytes) :=
  match readLine b with
  | none => none
  | some (line, rest) =>
    if line = ascii "EN" then some (.en, rest)
    else if ascii "VA " <+: line then
      match splitSpaces (line.drop 3) with
      | [] => none
      | word :: echo =>
        match readNumber word with
        | none => none
        | some n => readBody n echo rest
    else
      match after (ascii "SERVER_ERROR ") line with
      | some msg => some (.serverError msg, rest)
      | none => (after (ascii "VERSION ") line).map fun text => (.version text, rest)

/-- Read responses one at a time to the end of the stream, at most `fuel` of them. -/
def readResponsesFuel : Nat → Bytes → Option (List Response)
  | _, [] => some []
  | 0, _ :: _ => none
  | fuel + 1, c :: b =>
    match readResponse (c :: b) with
    | none => none
    | some (r, rest) => (readResponsesFuel fuel rest).map (r :: ·)

def readResponses (b : Bytes) : Option (List Response) :=
  readResponsesFuel b.length b

/-! ### What a connection responds -/

/-- The flags that a hit echoes. -/
def echoOf (flags : MgFlags) (key : Bytes) : List Bytes :=
  (if flags.k then [ascii "k" ++ key] else []) ++ (if flags.t then [ascii "t-1"] else [])

/-- The response to a command; `quit` has none. -/
def responseOf (cfg : ConnConfig) : Command → Option Response
  | .mg key flags =>
    match cfg.lookup key with
    | some (.hit value) => some (.va value (echoOf flags key))
    | some (.miss _) => some .en
    | none => some (.serverError (ascii "internal error"))
  | .version => some (.version (cfg.semver ++ ascii " gen/" ++ decimal cfg.generation))
  | .quit => none
  | .writeRejected _ => some (.serverError (ascii "read-only"))

/-- The bytes of a response. -/
def Response.encode : Response → Bytes
  | .va value echo =>
    ascii "VA " ++ (decimal value.length ++ (echo.map (32 :: ·)).flatten) ++ crlfBytes ++ value ++ crlfBytes
  | .en => ascii "EN" ++ crlfBytes
  | .serverError msg => ascii "SERVER_ERROR " ++ msg ++ crlfBytes
  | .version text => ascii "VERSION " ++ text ++ crlfBytes

/-- No header line of the response contains a carriage return, and no echoed flag a
space. -/
def Response.Clean : Response → Prop
  | .va _ echo => ∀ word ∈ echo, 13 ∉ word ∧ 32 ∉ word
  | .en => True
  | .serverError msg => 13 ∉ msg
  | .version text => 13 ∉ text

theorem writeVa_eq (dst value : Bytes) (flags : MgFlags) (key : Bytes) :
  writeVa dst value flags key = dst ++ (Response.va value (echoOf flags key)).encode
  := by
  obtain ⟨v, t, h, k⟩ := flags
  cases k <;> cases t <;> simp [writeVa, Response.encode, echoOf, ascii]

/-- What is written for a command are the bytes of its response. -/
theorem response_eq (cfg : ConnConfig) (cmd : Command) :
  response cfg cmd = ((responseOf cfg cmd).map Response.encode).getD []
  := by
  cases cmd with
  | mg key flags =>
    cases h : cfg.lookup key with
    | none => simp [response, dispatch, dispatchMg, responseOf, h, writeServerError, Response.encode]
    | some outcome =>
      cases outcome with
      | hit value => simp [response, dispatch, dispatchMg, responseOf, h, writeVa_eq]
      | miss io => simp [response, dispatch, dispatchMg, responseOf, h, writeEn, Response.encode]
  | version => simp [response, dispatch, responseOf, writeVersion, Response.encode]
  | quit => simp [response, dispatch, responseOf]
  | writeRejected dataLen =>
    by_cases h : dataLen = 0
    · simp [response, dispatch, responseOf, h, writeServerError, Response.encode]
    · simp [response, dispatch, responseOf, h, writeServerError, Response.encode]

/-! ### The header line -/

section

variable {line word rest : Bytes} {echo : List Bytes}

theorem readLine_append (h : 13 ∉ line) (rest : Bytes) :
  readLine (line ++ (crlfBytes ++ rest)) = some (line, rest)
  := by
  have htake := takeUntil2_append (y := 10) h rest
  simp only [readLine, crlfBytes, List.cons_append, List.nil_append, htake]
  rfl

theorem after_append (t b : Bytes) :
  after t (t ++ b) = some b
  := by
  rw [after, if_pos (List.prefix_append t b), List.drop_left]

theorem splitSpaces_of_not_mem (h : 32 ∉ word) :
  splitSpaces word = [word]
  := by
  induction word with
  | nil => rfl
  | cons c word ih =>
    rw [List.mem_cons, not_or] at h
    rw [splitSpaces, if_neg (Ne.symm h.1), ih h.2]

theorem splitSpaces_append (h : 32 ∉ word) (rest : Bytes) :
  splitSpaces (word ++ 32 :: rest) = word :: splitSpaces rest
  := by
  induction word with
  | nil => simp [splitSpaces]
  | cons c word ih =>
    rw [List.mem_cons, not_or] at h
    rw [List.cons_append, splitSpaces, if_neg (Ne.symm h.1), ih h.2]

/-- The words of a header are the length and the echoed flags. -/
theorem splitSpaces_header (hword : 32 ∉ word) (hecho : ∀ w ∈ echo, 32 ∉ w) :
  splitSpaces (word ++ (echo.map (32 :: ·)).flatten) = word :: echo
  := by
  induction echo generalizing word with
  | nil => simpa using splitSpaces_of_not_mem hword
  | cons w echo ih =>
    rw [List.map_cons, List.flatten_cons, List.cons_append, splitSpaces_append hword,
      ih (hecho w List.mem_cons_self) fun w' hw' => hecho w' (List.mem_cons_of_mem w hw')]

end

/-! ### Numbers -/

theorem toNat_ofNat_digit {c : Char} (h : c.isDigit = true) :
  (UInt8.ofNat c.toNat).toNat = c.toNat ∧ 48 ≤ c.toNat ∧ c.toNat ≤ 57
  := by
  have hbounds : 48 ≤ c.toNat ∧ c.toNat ≤ 57 := by
    simpa [Char.isDigit, UInt32.le_iff_toNat_le] using h
  refine ⟨?_, hbounds⟩
  rw [UInt8.toNat_ofNat']
  omega

theorem isDigit_decimal {n : Nat} {c : UInt8} (h : c ∈ decimal n) :
  48 ≤ c ∧ c ≤ 57
  := by
  obtain ⟨d, hd, rfl⟩ := List.mem_map.mp h
  obtain ⟨heq, hge, hle⟩ := toNat_ofNat_digit (Nat.isDigit_of_mem_toDigits (by decide) (by decide) hd)
  rw [UInt8.le_iff_toNat_le, UInt8.le_iff_toNat_le, heq]
  exact ⟨hge, hle⟩

theorem decimal_ne_nil (n : Nat) :
  decimal n ≠ []
  := by
  rw [decimal, ne_eq, List.map_eq_nil_iff]
  apply Nat.toDigits_ne_nil

/-- Digits have the value that the characters they encode have. -/
theorem foldl_digits {digits : List Char} (h : ∀ c ∈ digits, c.isDigit = true) (acc : Nat) :
  (digits.map fun c => UInt8.ofNat c.toNat).foldl (fun acc c => 10 * acc + (c.toNat - 48)) acc
    = Nat.ofDigitChars 10 digits acc
  := by
  induction digits generalizing acc with
  | nil => rfl
  | cons c digits ih =>
    have hc := (toNat_ofNat_digit (h c List.mem_cons_self)).1
    rw [List.map_cons, List.foldl_cons, hc, ih fun c' hc' => h c' (List.mem_cons_of_mem c hc'),
      Nat.ofDigitChars_cons]
    rfl

theorem digitsValue_decimal (n : Nat) :
  digitsValue (decimal n) = n
  := by
  rw [digitsValue, decimal, foldl_digits]
  · apply Nat.ofDigitChars_ten_toDigits
  · intro c hc
    apply Nat.isDigit_of_mem_toDigits (by decide) (by decide) hc

theorem readNumber_decimal (n : Nat) :
  readNumber (decimal n) = some n
  := by
  have hall : (decimal n).all (fun c => 48 ≤ c && c ≤ 57) = true := by
    simpa using fun c hc => isDigit_decimal hc
  rw [readNumber, if_pos ⟨decimal_ne_nil n, hall⟩, digitsValue_decimal]

theorem not_mem_decimal {n : Nat} {c : UInt8} (h : c < 48) :
  c ∉ decimal n
  := by
  intro hc
  exact absurd (isDigit_decimal hc).1 (UInt8.not_le.mpr h)

/-! ### Reading back -/

theorem readBody_append (value : Bytes) (echo : List Bytes) (rest : Bytes) :
  readBody value.length echo (value ++ (crlfBytes ++ rest)) = some (.va value echo, rest)
  := by
  rw [readBody, List.drop_left, after_append, List.take_left]

/-- The header line of a hit. -/
def vaLine (n : Nat) (echo : List Bytes) : Bytes :=
  ascii "VA " ++ (decimal n ++ (echo.map (32 :: ·)).flatten)

/-- A control character is in the head line of a value only if it is in what is echoed. -/
theorem not_mem_vaLine {c : UInt8} (hc : c < 32) {n : Nat} {echo : List Bytes}
    (h : ∀ word ∈ echo, c ∉ word) :
  c ∉ vaLine n echo
  := by
  have hva : (ascii "VA ").all (32 ≤ ·) = true := by decide
  have hle : ∀ d ∈ ascii "VA ", 32 ≤ d := fun d hd => of_decide_eq_true (List.all_eq_true.mp hva d hd)
  simp only [vaLine, List.mem_append, not_or, List.mem_flatten, List.mem_map]
  refine ⟨?_, not_mem_decimal (UInt8.lt_trans hc (by decide)), ?_⟩
  · intro hmem
    exact absurd (hle c hmem) (UInt8.not_le.mpr hc)
  · rintro ⟨-, ⟨word, hword, rfl⟩, hmem⟩
    rcases List.mem_cons.mp hmem with rfl | hmem
    · exact absurd hc (by decide)
    · exact h word hword hmem

/-- A response is read off the front of any bytes that follow it. -/
theorem readResponse_encode {r : Response} (h : r.Clean) (rest : Bytes) :
  readResponse (r.encode ++ rest) = some (r, rest)
  := by
  cases r with
  | va value echo =>
    have hline : readLine ((Response.va value echo).encode ++ rest)
        = some (vaLine value.length echo, value ++ (crlfBytes ++ rest)) := by
      rw [← readLine_append (not_mem_vaLine (by decide) fun word hword => (h word hword).1)]
      simp only [Response.encode, vaLine, List.append_assoc]
    have hne : vaLine value.length echo ≠ ascii "EN" := by
      intro heq
      exact absurd (congrArg List.head? heq) (by simp [vaLine, ascii])
    have hprefix : ascii "VA " <+: vaLine value.length echo := List.prefix_append _ _
    have hwords : splitSpaces ((vaLine value.length echo).drop 3) = decimal value.length :: echo := by
      rw [show (vaLine value.length echo).drop 3
        = decimal value.length ++ (echo.map (32 :: ·)).flatten from rfl]
      apply splitSpaces_header (not_mem_decimal (by decide))
      intro word hword
      apply (h word hword).2
    rw [readResponse, hline]
    dsimp only
    rw [if_neg hne, if_pos hprefix, hwords]
    dsimp only
    rw [readNumber_decimal]
    dsimp only
    rw [readBody_append]
  | en =>
    have hline : readLine (ascii "EN" ++ (crlfBytes ++ rest)) = some (ascii "EN", rest) :=
      readLine_append (by decide) rest
    rw [readResponse, Response.encode, List.append_assoc, hline]
    rfl
  | serverError msg =>
    have hcr : 13 ∉ ascii "SERVER_ERROR " ++ msg := by
      rw [List.mem_append, not_or]
      exact ⟨by decide, h⟩
    rw [readResponse, Response.encode, List.append_assoc, readLine_append hcr]
    dsimp only
    rw [if_neg (by simp [ascii]), if_neg (by simp [ascii, List.cons_prefix_cons]), after_append]
  | version text =>
    have hcr : 13 ∉ ascii "VERSION " ++ text := by
      rw [List.mem_append, not_or]
      exact ⟨by decide, h⟩
    have hother : after (ascii "SERVER_ERROR ") (ascii "VERSION " ++ text) = none := by
      rw [after, if_neg (by simp [ascii, List.cons_prefix_cons])]
    rw [readResponse, Response.encode, List.append_assoc, readLine_append hcr]
    dsimp only
    rw [if_neg (by simp [ascii]), if_neg (by simp [ascii, List.cons_prefix_cons]), hother]
    dsimp only
    rw [after_append]
    rfl

theorem encode_ne_nil (r : Response) :
  r.encode ≠ []
  := by
  cases r <;> simp [Response.encode, crlfBytes]

/-- Responses are read back, one after the other. -/
theorem readResponsesFuel_encode {rs : List Response} (h : ∀ r ∈ rs, r.Clean) {fuel : Nat}
    (hfuel : rs.length ≤ fuel) :
  readResponsesFuel fuel (rs.map Response.encode).flatten = some rs
  := by
  induction rs generalizing fuel with
  | nil =>
    cases fuel <;> rfl
  | cons r rs ih =>
    rw [List.length_cons] at hfuel
    obtain ⟨fuel, rfl⟩ := Nat.exists_eq_succ_of_ne_zero (by omega : fuel ≠ 0)
    obtain ⟨c, b, hb⟩ : ∃ c b, r.encode ++ (rs.map Response.encode).flatten = c :: b :=
      List.exists_cons_of_ne_nil (by simp [encode_ne_nil])
    rw [List.map_cons, List.flatten_cons, hb, readResponsesFuel, ← hb,
      readResponse_encode (h r List.mem_cons_self)]
    dsimp only
    rw [ih (fun r' hr' => h r' (List.mem_cons_of_mem r hr')) (by omega)]
    rfl

theorem length_le_flatten_encode (rs : List Response) :
  rs.length ≤ (rs.map Response.encode).flatten.length
  := by
  induction rs with
  | nil => simp
  | cons r rs ih =>
    have hpos := List.length_pos_of_ne_nil (encode_ne_nil r)
    rw [List.length_cons, List.map_cons, List.flatten_cons, List.length_append]
    omega

theorem readResponses_encode {rs : List Response} (h : ∀ r ∈ rs, r.Clean) :
  readResponses (rs.map Response.encode).flatten = some rs
  := by
  apply readResponsesFuel_encode h (length_le_flatten_encode rs)

/-- The commands of a connection dispatched one after the other, each with the lookup of its
time. -/
def dispatchAll (steps : List (ConnConfig × Command)) : Bytes :=
  steps.foldl (fun dst step => (dispatch step.1 step.2 dst).2) []

/-- The responses to commands are written one behind the other. -/
theorem foldl_dispatch (steps : List (ConnConfig × Command)) (dst : Bytes) :
  steps.foldl (fun dst step => (dispatch step.1 step.2 dst).2) dst
    = dst ++ ((steps.filterMap fun step => responseOf step.1 step.2).map Response.encode).flatten
  := by
  induction steps generalizing dst with
  | nil => simp
  | cons step steps ih =>
    rw [List.foldl_cons, ih, dispatch_eq, response_eq, List.append_assoc]
    cases h : responseOf step.1 step.2 with
    | none => simp [h]
    | some r => simp [h]

/-- The echoed flags contain no space and no byte of a line end. -/
theorem clean_echoOf {key : Bytes} (h : ParsedKey key) (flags : MgFlags) :
  ∀ word ∈ echoOf flags key, ∀ c ∈ word, c ≠ 32 ∧ c ≠ 13 ∧ c ≠ 10
  := by
  intro word hword c hc
  rw [echoOf, List.mem_append] at hword
  rcases hword with hword | hword
  · split at hword
    · obtain rfl := List.mem_singleton.mp hword
      rcases List.mem_append.mp hc with hc | hc
      · obtain rfl := List.mem_singleton.mp hc
        decide
      · apply h.clean c hc
    · simp at hword
  · split at hword
    · obtain rfl := List.mem_singleton.mp hword
      have hall : (ascii "t-1").all (fun c => c ≠ 32 ∧ c ≠ 13 ∧ c ≠ 10) = true := by decide
      apply of_decide_eq_true (List.all_eq_true.mp hall c hc)
    · simp at hword

/-- The response to a command that was parsed can be read back. -/
theorem clean_responseOf {cfg : ConnConfig} {cmd : Command} {r : Response} (hcmd : Parsed cmd)
    (hsemver : 13 ∉ cfg.semver) (h : responseOf cfg cmd = some r) :
  r.Clean
  := by
  cases cmd with
  | mg key flags =>
    rw [responseOf] at h
    split at h
    · obtain rfl := Option.some.inj h
      intro word hword
      have hclean := clean_echoOf hcmd.parsedKey flags word hword
      constructor
      · intro hmem
        exact (hclean 13 hmem).2.1 rfl
      · intro hmem
        exact (hclean 32 hmem).1 rfl
    · obtain rfl := Option.some.inj h
      trivial
    · obtain rfl := Option.some.inj h
      rw [Response.Clean]
      decide
  | version =>
    obtain rfl := Option.some.inj h
    simp only [Response.Clean, List.mem_append, not_or]
    exact ⟨⟨hsemver, by decide⟩, not_mem_decimal (by decide)⟩
  | quit => simp [responseOf] at h
  | writeRejected n =>
    obtain rfl := Option.some.inj h
    rw [Response.Clean]
    decide

/-- The bytes that parsed commands append are read back as the responses to the commands,
in their order. -/
theorem readResponses_dispatchAll {steps : List (ConnConfig × Command)}
    (hparsed : ∀ step ∈ steps, Parsed step.2) (hsemver : ∀ step ∈ steps, 13 ∉ step.1.semver) :
  readResponses (dispatchAll steps) = some (steps.filterMap fun step => responseOf step.1 step.2)
  := by
  rw [dispatchAll, foldl_dispatch, List.nil_append]
  apply readResponses_encode
  intro r hr
  obtain ⟨step, hstep, heq⟩ := List.mem_filterMap.mp hr
  apply clean_responseOf (hparsed step hstep) (hsemver step hstep) heq

end Server
