import Mcfreeze.Lib.Streaming

/-!
# The memcache meta protocol

The command parser, the response framer and the command dispatch of the server
(`protocol/meta.rs`, `protocol/commands.rs`).  `parseCommand` reads one command off the
front of the read buffer; `dispatch` runs it against a lookup function, appends the
response to the write buffer and says what the connection does next.
-/

open Streaming

namespace Server

/-- The bytes of a text of ASCII characters. -/
def ascii (s : String) : Bytes :=
  s.toList.map fun c => UInt8.ofNat c.toNat

/-- The decimal digits of a number. -/
def decimal (n : Nat) : Bytes :=
  (Nat.toDigits 10 n).map fun c => UInt8.ofNat c.toNat

/-- Carriage return and line feed. -/
def crlfBytes : Bytes := [13, 10]

/-! ### Commands -/

/-- The flags of an `mg` command line. -/
structure MgFlags where
  v : Bool
  t : Bool
  h : Bool
  k : Bool
  deriving DecidableEq, Repr

/-- No flag set. -/
def MgFlags.default : MgFlags := ⟨false, false, false, false⟩

/-- A parsed client command. -/
inductive Command where
  | mg (key : Bytes) (flags : MgFlags)
  | version
  | quit
  | writeRejected (dataLen : Nat)
  deriving DecidableEq, Repr

/-- An unrecoverable parse error. -/
inductive ProtoError where
  | parse (code : String)
  deriving DecidableEq, Repr

/-- The name under which an error kind is reported. -/
def debugKind : ErrorKind → String
  | .tag => "Tag"
  | .space => "Space"
  | .takeWhile1 => "TakeWhile1"
  | .digit => "Digit"
  | .mapRes => "MapRes"

/-! ### Parser -/

/-- A run of bytes other than space, carriage return and line feed. -/
def token : Parser Bytes :=
  run1 (fun c => c != 32 && c != 13 && c != 10) .takeWhile1

/-- A run of spaces and tabs. -/
def space1 : Parser Bytes :=
  run1 (fun c => c == 32 || c == 9) .space

/-- A run of decimal digits. -/
def digit1 : Parser Bytes :=
  run1 (fun c => 48 ≤ c && c ≤ 57) .digit

def crlf : Parser Unit :=
  tag crlfBytes

/-- The flag a token of an `mg` line sets; only its first byte counts, and an unknown one
is ignored. -/
def MgFlags.setToken (flags : MgFlags) (tok : Bytes) : MgFlags :=
  match tok.head? with
  | some 118 => { flags with v := true }
  | some 116 => { flags with t := true }
  | some 104 => { flags with h := true }
  | some 107 => { flags with k := true }
  | _ => flags

/-- Spaces followed by a token. -/
def flagToken : Parser Bytes :=
  andThen space1 fun _ => token

def parseMg : Parser Command :=
  andThen (tag (ascii "mg")) fun _ =>
  andThen space1 fun _ =>
  andThen token fun key =>
  andThen (foldMany flagToken MgFlags.setToken .default) fun flags =>
  andThen crlf fun _ =>
  succeed (.mg key flags)

def parseVersion : Parser Command :=
  andThen (tag (ascii "version")) fun _ =>
  andThen crlf fun _ =>
  succeed .version

def parseQuit : Parser Command :=
  andThen (tag (ascii "quit")) fun _ =>
  andThen crlf fun _ =>
  succeed .quit

/-- The number a run of digits denotes, if it fits 64 bits. -/
def parseUsize (digits : Bytes) : Option Nat :=
  let n := digits.foldl (fun acc c => 10 * acc + (c.toNat - 48)) 0
  if n < 2 ^ 64 then some n else none

def parseMs : Parser Command :=
  andThen (tag (ascii "ms")) fun _ =>
  andThen space1 fun _ =>
  andThen token fun _ =>
  andThen space1 fun _ =>
  andThen (mapRes digit1 parseUsize) fun dataLen =>
  andThen (takeUntil2 13 10) fun _ =>
  andThen crlf fun _ =>
  succeed (.writeRejected dataLen)

def parseMdMa : Parser Command :=
  andThen (orElse (tag (ascii "md")) (tag (ascii "ma"))) fun _ =>
  andThen (takeUntil2 13 10) fun _ =>
  andThen crlf fun _ =>
  succeed (.writeRejected 0)

def nomParse : Parser Command :=
  orElse parseMg <| orElse parseVersion <| orElse parseQuit <| orElse parseMs parseMdMa

/-- Parse one command from the front of `src`; the second component is the buffer
afterwards. -/
def parseCommand (src : Bytes) : Except ProtoError (Option Command) × Bytes :=
  match nomParse src with
  | .done remaining cmd => (.ok (some cmd), remaining)
  | .incomplete => (.ok none, src)
  | .error kind => (.error (.parse (debugKind kind)), src)

theorem parseCommand_eq_some_iff {b rest : Bytes} {cmd : Command} :
  parseCommand b = (.ok (some cmd), rest) ↔ nomParse b = .done rest cmd
  := by
  rw [parseCommand]
  cases hb : nomParse b with
  | done r c =>
    simp only [Prod.mk.injEq, Except.ok.injEq, Option.some.injEq, IResult.done.injEq]
    apply and_comm
  | incomplete => simp
  | error kind => simp

/-! ### Framer -/

def writeVa (dst value : Bytes) (flags : MgFlags) (key : Bytes) : Bytes :=
  dst ++ ascii "VA " ++ decimal value.length
    ++ (if flags.k then ascii " k" ++ key else [])
    ++ (if flags.t then ascii " t-1" else [])
    ++ crlfBytes ++ value ++ crlfBytes

def writeEn (dst : Bytes) : Bytes :=
  dst ++ ascii "EN" ++ crlfBytes

def writeServerError (dst msg : Bytes) : Bytes :=
  dst ++ ascii "SERVER_ERROR " ++ msg ++ crlfBytes

def writeVersion (dst semver : Bytes) (generation : Nat) : Bytes :=
  dst ++ ascii "VERSION " ++ semver ++ ascii " gen/" ++ decimal generation ++ crlfBytes

/-! ### Dispatch -/

/-- The outcome of a lookup that did not fail. -/
inductive LookupOutcome where
  | hit (value : Bytes)
  | miss (io : Bool)
  deriving DecidableEq, Repr

/-- A lookup function; `none` is a failed lookup. -/
abbrev Lookup := Bytes → Option LookupOutcome

/-- What the connection does after a command. -/
inductive Disposition where
  | continue
  | close
  | drain (n : Nat)
  deriving DecidableEq, Repr

/-- The fixed parameters of a connection. -/
structure ConnConfig where
  lookup : Lookup
  semver : Bytes
  generation : Nat

def dispatchMg (cfg : ConnConfig) (key : Bytes) (flags : MgFlags) (dst : Bytes) : Bytes :=
  match cfg.lookup key with
  | some (.hit value) => writeVa dst value flags key
  | some (.miss _) => writeEn dst
  | none => writeServerError dst (ascii "internal error")

/-- Run one command, append its response to `dst` and say what comes next.  The length
of the data block and its terminator is computed in 64-bit arithmetic. -/
def dispatch (cfg : ConnConfig) (cmd : Command) (dst : Bytes) : Disposition × Bytes :=
  match cmd with
  | .mg key flags => (.continue, dispatchMg cfg key flags dst)
  | .version => (.continue, writeVersion dst cfg.semver cfg.generation)
  | .quit => (.close, dst)
  | .writeRejected dataLen =>
    let dst := writeServerError dst (ascii "read-only")
    if dataLen = 0 then (.continue, dst)
    else (.drain ((dataLen + 2) % 2 ^ 64), dst)

/-- The bytes `dispatch` appends for a command. -/
def response (cfg : ConnConfig) (cmd : Command) : Bytes :=
  (dispatch cfg cmd []).2

/-- What the connection does after a command, which does not depend on the lookup. -/
def disposition : Command → Disposition
  | .mg _ _ => .continue
  | .version => .continue
  | .quit => .close
  | .writeRejected dataLen =>
    if dataLen = 0 then .continue else .drain ((dataLen + 2) % 2 ^ 64)

/-- `dispatch` appends the response of the command to the write buffer. -/
theorem dispatch_eq (cfg : ConnConfig) (cmd : Command) (dst : Bytes) :
  dispatch cfg cmd dst = (disposition cmd, dst ++ response cfg cmd)
  := by
  cases cmd with
  | mg key flags =>
    cases h : cfg.lookup key with
    | none => simp [dispatch, response, disposition, dispatchMg, h, writeServerError]
    | some outcome =>
      cases outcome with
      | hit value => simp [dispatch, response, disposition, dispatchMg, h, writeVa]
      | miss io => simp [dispatch, response, disposition, dispatchMg, h, writeEn]
  | version => simp [dispatch, response, disposition, writeVersion]
  | quit => simp [dispatch, response, disposition]
  | writeRejected dataLen =>
    by_cases h : dataLen = 0
    · simp [dispatch, response, disposition, h, writeServerError]
    · simp [dispatch, response, disposition, h, writeServerError]

/-- The response to a rejected write is not empty. -/
theorem response_writeRejected_ne_nil (cfg : ConnConfig) (dataLen : Nat) :
  response cfg (.writeRejected dataLen) ≠ []
  := by
  have hlen : (response cfg (.writeRejected dataLen)).length ≠ 0 := by
    by_cases h : dataLen = 0
    · simp [response, dispatch, h, writeServerError, crlfBytes]
    · simp [response, dispatch, h, writeServerError, crlfBytes]
  intro h
  exact hlen (by simp [h])

/-! ### The parser is stable and advances -/

theorem stable_flagToken :
  Stable flagToken
  := (stable_run1 _ _).andThen fun _ => stable_run1 _ _

theorem advances_flagToken :
  Advances 1 flagToken
  := ((advances_run1 _ _).andThen fun _ => advances_run1 _ _).mono (by omega)

theorem stable_crlf :
  Stable crlf
  := stable_tag _

/-- More bytes do not change what the grammar has decided. -/
theorem stable_nomParse :
  Stable nomParse
  := by
  apply Stable.orElse
  · apply (stable_tag _).andThen fun _ => (stable_run1 _ _).andThen fun _ =>
      (stable_run1 _ _).andThen fun _ =>
      (stable_flagToken.foldMany advances_flagToken _ _).andThen fun _ =>
      stable_crlf.andThen fun _ => stable_succeed _
  apply Stable.orElse
  · apply (stable_tag _).andThen fun _ => stable_crlf.andThen fun _ => stable_succeed _
  apply Stable.orElse
  · apply (stable_tag _).andThen fun _ => stable_crlf.andThen fun _ => stable_succeed _
  apply Stable.orElse
  · apply (stable_tag _).andThen fun _ => (stable_run1 _ _).andThen fun _ =>
      (stable_run1 _ _).andThen fun _ => (stable_run1 _ _).andThen fun _ =>
      ((stable_run1 _ _).mapRes _).andThen fun _ => (stable_takeUntil2 _ _).andThen fun _ =>
      stable_crlf.andThen fun _ => stable_succeed _
  · apply ((stable_tag _).orElse (stable_tag _)).andThen fun _ =>
      (stable_takeUntil2 _ _).andThen fun _ => stable_crlf.andThen fun _ => stable_succeed _

/-- A parser that starts with a tag of two bytes or more advances by two. -/
theorem advances_tag_andThen {α : Type} (t : Bytes) (ht : 2 ≤ t.length) {f : Unit → Parser α}
    (hf : ∀ u, Advances 0 (f u)) :
  Advances 2 (andThen (tag t) f)
  := ((advances_tag t).andThen hf).mono (by omega)

/-- A command takes at least two bytes. -/
theorem advances_nomParse :
  Advances 2 nomParse
  := by
  have hcrlf : ∀ cmd : Command, Advances 0 (andThen crlf fun _ => succeed cmd) := fun cmd =>
    (advances_tag _).skip fun _ => advances_succeed _
  have hline : ∀ cmd : Command,
      Advances 0 (andThen (takeUntil2 13 10) fun _ => andThen crlf fun _ => succeed cmd) :=
    fun cmd => (advances_takeUntil2 _ _).skip fun _ => hcrlf cmd
  apply Advances.orElse
  · apply advances_tag_andThen _ (by decide)
    intro _
    apply (advances_run1 _ _).skip
    intro _
    apply (advances_run1 _ _).skip
    intro key
    apply (advances_flagToken.foldMany _ _).skip
    intro flags
    apply hcrlf
  apply Advances.orElse
  · apply advances_tag_andThen _ (by decide)
    intro _
    apply hcrlf
  apply Advances.orElse
  · apply advances_tag_andThen _ (by decide)
    intro _
    apply hcrlf
  apply Advances.orElse
  · apply advances_tag_andThen _ (by decide)
    intro _
    apply (advances_run1 _ _).skip
    intro _
    apply (advances_run1 _ _).skip
    intro _
    apply (advances_run1 _ _).skip
    intro _
    apply ((advances_run1 _ _).mapRes _).skip
    intro dataLen
    apply hline
  · have htag : ∀ t : Bytes, 2 ≤ t.length → Advances 2 (tag t) := fun t ht =>
      (advances_tag t).mono ht
    have htags := (htag (ascii "md") (by decide)).orElse (htag (ascii "ma") (by decide))
    have hmdma := htags.andThen fun _ => hline (.writeRejected 0)
    apply hmdma

/-- A parsed command is the same, and leaves the later bytes too, when more bytes have
arrived. -/
theorem parseCommand_append_some
    {b rest : Bytes} {cmd : Command} (h : parseCommand b = (.ok (some cmd), rest)) (e : Bytes) :
  parseCommand (b ++ e) = (.ok (some cmd), rest ++ e)
  := by
  rw [parseCommand_eq_some_iff] at h ⊢
  apply stable_nomParse.done h

/-- A parse error stays one when more bytes have arrived. -/
theorem parseCommand_append_error
    {b rest : Bytes} {err : ProtoError} (h : parseCommand b = (.error err, rest)) (e : Bytes) :
  parseCommand (b ++ e) = (.error err, b ++ e)
  := by
  rw [parseCommand] at h ⊢
  cases hb : nomParse b with
  | done r c => simp [hb] at h
  | incomplete => simp [hb] at h
  | error kind =>
    simp only [hb, Prod.mk.injEq, Except.error.injEq] at h
    rw [stable_nomParse.error hb, ← h.1]

/-- A parsed command takes at least two bytes off the buffer. -/
theorem parseCommand_length
    {b rest : Bytes} {cmd : Command} (h : parseCommand b = (.ok (some cmd), rest)) :
  rest.length + 2 ≤ b.length
  := by
  apply advances_nomParse.length_le (parseCommand_eq_some_iff.mp h)

/-! ### The parser does not stall -/

theorem skips_space1 :
  Skips 13 space1
  := skips_run1 (by decide)

theorem skips_token :
  Skips 13 token
  := skips_run1 (by decide)

theorem waitsFor_space1 :
  WaitsFor 13 10 space1
  := waitsFor_run1 (by decide)

theorem waitsFor_token :
  WaitsFor 13 10 token
  := waitsFor_run1 (by decide)

/-- The end of a command line. -/
theorem waitsFor_crlf (cmd : Command) :
  WaitsFor 13 10 (andThen crlf fun _ => succeed cmd)
  := by
  intro b h
  unfold andThen at h
  cases hb : crlf b with
  | done r u => simp [hb, succeed] at h
  | incomplete => apply waitsFor_tag_self hb
  | error kind => simp [hb] at h

theorem waitsFor_line (cmd : Command) :
  WaitsFor 13 10 (andThen (takeUntil2 13 10) fun _ => andThen crlf fun _ => succeed cmd)
  := by
  apply waitsFor_takeUntil2_tag
  intro taken u b h
  cases h

/-- An `mg` command needs more bytes only as long as its line has not ended. -/
theorem waitsFor_parseMg :
  WaitsFor 13 10 parseMg
  := by
  apply (waitsFor_tag (by decide)).andThen (skips_tag (by decide))
  intro _
  apply waitsFor_space1.andThen skips_space1
  intro _
  apply waitsFor_token.andThen skips_token
  intro key
  have hskip : Skips 13 flagToken := skips_space1.andThen fun _ => skips_token
  have hwait : WaitsFor 13 10 flagToken := waitsFor_space1.andThen skips_space1 fun _ => waitsFor_token
  apply (hwait.foldMany hskip advances_flagToken _ _).andThen (hskip.foldMany _ _)
  intro flags
  apply waitsFor_crlf

/-- An `ms` command needs more bytes only as long as its line has not ended. -/
theorem waitsFor_parseMs :
  WaitsFor 13 10 parseMs
  := by
  apply (waitsFor_tag (by decide)).andThen (skips_tag (by decide))
  intro _
  apply waitsFor_space1.andThen skips_space1
  intro _
  apply waitsFor_token.andThen skips_token
  intro _
  apply waitsFor_space1.andThen skips_space1
  intro _
  have hskip : Skips 13 digit1 := skips_run1 (by decide)
  have hwait : WaitsFor 13 10 digit1 := waitsFor_run1 (by decide)
  apply (hwait.mapRes _).andThen (hskip.mapRes _)
  intro dataLen
  apply waitsFor_line

theorem waitsFor_parseMdMa :
  WaitsFor 13 10 parseMdMa
  := by
  have hwait : ∀ t : Bytes, 13 ∉ t → WaitsFor 13 10 (tag t) := fun t => waitsFor_tag
  have hskip : ∀ t : Bytes, 13 ∉ t → Skips 13 (tag t) := fun t => skips_tag
  apply ((hwait _ (by decide)).orElse (hwait _ (by decide))).andThen
  · apply (hskip _ (by decide)).orElse (hskip _ (by decide))
  · intro _
    apply waitsFor_line

/-- A command needs more bytes only as long as its line has not ended. -/
theorem waitsFor_nomParse :
  WaitsFor 13 10 nomParse
  := by
  apply waitsFor_parseMg.orElse
  apply WaitsFor.orElse
  · apply (waitsFor_tag (by decide)).andThen (skips_tag (by decide))
    intro _
    apply waitsFor_crlf
  apply WaitsFor.orElse
  · apply (waitsFor_tag (by decide)).andThen (skips_tag (by decide))
    intro _
    apply waitsFor_crlf
  apply waitsFor_parseMs.orElse waitsFor_parseMdMa

/-- A command that was parsed is parsed again, off the front, when more bytes have arrived,
and so is an error.  The parser waits only while the buffer has no line end, and leaves it
as it is. -/
theorem parseCommand_streams (b e : Bytes) :
  (∀ cmd r, parseCommand b = (.ok (some cmd), r) →
      parseCommand (b ++ e) = (.ok (some cmd), r ++ e) ∧ r.length < b.length)
    ∧ (∀ err r, parseCommand b = (.error err, r) →
      ∃ r', parseCommand (b ++ e) = (.error err, r'))
    ∧ (∀ r, parseCommand b = (.ok none, r) → r = b ∧ ¬ crlfBytes <:+: b)
  := by
  refine ⟨?_, ?_, ?_⟩
  · intro cmd r h
    have hlen := parseCommand_length h
    exact ⟨parseCommand_append_some h e, by omega⟩
  · intro err r h
    exact ⟨_, parseCommand_append_error h e⟩
  · intro r h
    rw [parseCommand] at h
    cases hb : nomParse b with
    | done rest cmd => simp [hb] at h
    | incomplete =>
      simp only [hb, Prod.mk.injEq, true_and] at h
      exact ⟨h.symm, waitsFor_nomParse hb⟩
    | error kind => simp [hb] at h

/-! ### What the parser yields -/

/-- A key as it stands in a parsed command. -/
structure ParsedKey (key : Bytes) : Prop where
  ne_nil : key ≠ []
  clean : ∀ c ∈ key, c ≠ 32 ∧ c ≠ 13 ∧ c ≠ 10
  head : key.head? ≠ some 9

/-- A command that the parser yields on some bytes. -/
def Parsed (cmd : Command) : Prop :=
  ∃ b rest, parseCommand b = (.ok (some cmd), rest)

section

variable {b rest key : Bytes} {flags : MgFlags} {cmd : Command}

/-- A token is not empty and has no blanks and line ends. -/
theorem token_done (h : token b = .done rest key) :
  key ≠ [] ∧ (∀ c ∈ key, c ≠ 32 ∧ c ≠ 13 ∧ c ≠ 10) ∧ key.head? = b.head?
  := by
  obtain ⟨rfl, rfl, -, hne⟩ := run1_done h
  refine ⟨hne, ?_, ?_⟩
  · intro c hc
    simpa [and_assoc] using List.mem_takeWhile_imp hc
  · cases b with
    | nil => rfl
    | cons c b =>
      rw [List.takeWhile_cons] at hne ⊢
      split at hne
      · next hc => rw [if_pos hc]; rfl
      · exact absurd rfl hne

/-- The bytes behind a run of spaces and tabs do not start with a tab. -/
theorem space1_done {taken : Bytes} (h : space1 b = .done rest taken) :
  rest.head? ≠ some 9
  := by
  obtain ⟨rfl, -, hne, -⟩ := run1_done h
  intro hhead
  have hnot := List.head_dropWhile_not (fun c : UInt8 => c == 32 || c == 9) hne
  rw [List.head?_eq_some_head hne, Option.some.injEq] at hhead
  rw [hhead] at hnot
  simp at hnot

/-- The parser of `mg` gives an `mg`. -/
theorem parseMg_done (h : parseMg b = .done rest cmd) :
  ∃ key flags, cmd = .mg key flags ∧ ParsedKey key
  := by
  obtain ⟨r₁, -, -, h⟩ := andThen_eq_done h
  obtain ⟨r₂, taken, hspace, h⟩ := andThen_eq_done h
  obtain ⟨r₃, key, htoken, h⟩ := andThen_eq_done h
  obtain ⟨r₄, flags, -, h⟩ := andThen_eq_done h
  obtain ⟨r₅, -, -, h⟩ := andThen_eq_done h
  simp only [succeed, IResult.done.injEq] at h
  obtain ⟨hne, hclean, hhead⟩ := token_done htoken
  exact ⟨key, flags, h.2.symm, hne, hclean, hhead ▸ space1_done hspace⟩

theorem parseVersion_done (h : parseVersion b = .done rest cmd) :
  cmd = .version
  := by
  obtain ⟨r₁, -, -, h⟩ := andThen_eq_done h
  obtain ⟨r₂, -, -, h⟩ := andThen_eq_done h
  simp only [succeed, IResult.done.injEq] at h
  exact h.2.symm

theorem parseQuit_done (h : parseQuit b = .done rest cmd) :
  cmd = .quit
  := by
  obtain ⟨r₁, -, -, h⟩ := andThen_eq_done h
  obtain ⟨r₂, -, -, h⟩ := andThen_eq_done h
  simp only [succeed, IResult.done.injEq] at h
  exact h.2.symm

/-- The parser of `ms` gives a write that is refused. -/
theorem parseMs_done (h : parseMs b = .done rest cmd) :
  ∃ n, cmd = .writeRejected n
  := by
  obtain ⟨r₁, -, -, h⟩ := andThen_eq_done h
  obtain ⟨r₂, -, -, h⟩ := andThen_eq_done h
  obtain ⟨r₃, -, -, h⟩ := andThen_eq_done h
  obtain ⟨r₄, -, -, h⟩ := andThen_eq_done h
  obtain ⟨r₅, n, -, h⟩ := andThen_eq_done h
  obtain ⟨r₆, -, -, h⟩ := andThen_eq_done h
  obtain ⟨r₇, -, -, h⟩ := andThen_eq_done h
  simp only [succeed, IResult.done.injEq] at h
  exact ⟨n, h.2.symm⟩

theorem parseMdMa_done (h : parseMdMa b = .done rest cmd) :
  cmd = .writeRejected 0
  := by
  obtain ⟨r, -, -, h⟩ := andThen_eq_done h
  obtain ⟨r', -, -, h⟩ := andThen_eq_done h
  obtain ⟨r'', -, -, h⟩ := andThen_eq_done h
  simp only [succeed, IResult.done.injEq] at h
  exact h.2.symm

/-- The key of an `mg` that was parsed is not empty and has no blanks and line ends. -/
theorem Parsed.parsedKey (h : Parsed (.mg key flags)) :
  ParsedKey key
  := by
  obtain ⟨b, rest, hparse⟩ := h
  rcases orElse_eq_done (parseCommand_eq_some_iff.mp hparse) with h | h
  · obtain ⟨key', flags', heq, hkey⟩ := parseMg_done h
    obtain ⟨rfl, -⟩ := Command.mg.inj heq
    exact hkey
  rcases orElse_eq_done h with h | h
  · cases parseVersion_done h
  rcases orElse_eq_done h with h | h
  · cases parseQuit_done h
  rcases orElse_eq_done h with h | h
  · obtain ⟨n, hn⟩ := parseMs_done h
    cases hn
  · cases parseMdMa_done h

end

end Server
