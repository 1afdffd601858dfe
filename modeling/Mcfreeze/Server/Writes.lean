import Mcfreeze.Server.Connection

/-!
# Rejected writes

An `ms` command line announces a data block, which the connection has to skip after it
rejected the command; `md` and `ma` lines announce none.  The parser, the dispatch and the
connection pass the length of the block on as one number, in which zero stands for `md` and
`ma`.

`resumesAt` is where a connection goes on after the first command of a stream.
-/

open Streaming

namespace Server

/-- A command line of `ms` that the parser accepts, with its data length. -/
structure MsLine (line : Bytes) (dataLen : Nat) : Prop where
  keyword : ascii "ms" <+: line
  accepted : parseCommand line = (.ok (some (.writeRejected dataLen)), [])

/-- A command line of `md` or `ma` that the parser accepts. -/
structure MdMaLine (line : Bytes) : Prop where
  keyword : ascii "md" <+: line ∨ ascii "ma" <+: line
  accepted : ∃ cmd, parseCommand line = (.ok (some cmd), [])

/-- The bytes of a stream after its first command and what is drained for it. -/
def resumesAt (stream : Bytes) : Option Bytes :=
  match parseCommand stream with
  | (.ok (some cmd), rest) =>
    match disposition cmd with
    | .continue => some rest
    | .close => none
    | .drain n => if rest.length < n then none else some (rest.drop n)
  | _ => none

section

variable {stream line body rest : Bytes} {cmd : Command} {n : Nat}

theorem resumesAt_continue (h : parseCommand stream = (.ok (some cmd), rest))
    (hd : disposition cmd = .continue) :
  resumesAt stream = some rest
  := by
  simp only [resumesAt, h, hd]

theorem resumesAt_drain (h : parseCommand stream = (.ok (some cmd), rest))
    (hd : disposition cmd = .drain n) (hn : n ≤ rest.length) :
  resumesAt stream = some (rest.drop n)
  := by
  simp only [resumesAt, h, hd, if_neg (Nat.not_lt.mpr hn)]

/-- Where a stream resumes, its session goes on. -/
theorem session_of_resumesAt (h : parseCommand stream = (.ok (some cmd), rest)) {next : Bytes}
    (hnext : resumesAt stream = some next) :
  session stream = (cmd :: (session next).1, (session next).2)
  := by
  cases hd : disposition cmd with
  | «continue» =>
    obtain rfl : rest = next := by simpa [resumesAt_continue h hd] using hnext
    apply session_continue h hd
  | close => simp [resumesAt, h, hd] at hnext
  | drain n =>
    have hn : n ≤ rest.length := by
      by_contra hlt
      simp [resumesAt, h, hd, Nat.not_le.mp hlt] at hnext
    obtain rfl : rest.drop n = next := by simpa [resumesAt_drain h hd hn] using hnext
    apply session_drain h hd hn

/-- A connection that completes a stream completes what its first command leaves of it. -/
theorem Completes.uncons {cfg : ConnConfig} {outcome : Outcome}
    (hs : session stream = (cmd :: (session rest).1, (session rest).2))
    (h : Completes cfg outcome [] [] stream) :
  Completes cfg outcome (response cfg cmd) [cmd] rest
  := by
  obtain ⟨hd, hf, lost, hw, hl⟩ := h
  refine ⟨?_, ?_, lost, ?_, ?_⟩
  · rw [hd, hs]
    rfl
  · rw [hf, hs]
  · rw [hw, transcript, transcript, hs]
    simp [responses]
  · rw [hl, hs]

theorem MsLine.parseCommand_append (h : MsLine line n) (tail : Bytes) :
  parseCommand (line ++ tail) = (.ok (some (.writeRejected n)), tail)
  := by
  simpa using parseCommand_append_some h.accepted tail

/-- A data block with its terminator is drained to its end, if its length is neither taken
for that of another command nor too large to have the terminator added. -/
theorem MsLine.resumesAt_of_bounds (h : MsLine line n) (hbody : body.length = n) (hpos : 0 < n)
    (hn : n + 2 < 2 ^ 64) (rest : Bytes) :
  resumesAt (line ++ (body ++ crlfBytes ++ rest)) = some rest
  := by
  have hlen : (body ++ crlfBytes).length = n + 2 := by simp [hbody, crlfBytes]
  have hd : disposition (.writeRejected n) = .drain (n + 2) := by
    simp only [disposition, hpos.ne', if_false, Nat.mod_eq_of_lt hn]
  rw [resumesAt_drain (h.parseCommand_append _) hd (by rw [List.length_append, hlen]; omega),
    ← hlen, List.drop_left]

/-- A data block of length zero is not drained, so its terminator is left. -/
theorem MsLine.resumesAt_zero (h : MsLine line 0) (tail : Bytes) :
  resumesAt (line ++ tail) = some tail
  := by
  apply resumesAt_continue (h.parseCommand_append tail)
  rfl

/-- Only the last alternative of the parser takes `md` and `ma`. -/
theorem nomParse_md_ma (c : UInt8) (hc : c = 100 ∨ c = 97) (l : Bytes) :
  nomParse (109 :: c :: l) = parseMdMa (109 :: c :: l)
  := by
  rcases hc with rfl | rfl
  · rfl
  · rfl

/-- A line of `md` or `ma` is parsed as a write that is refused. -/
theorem MdMaLine.accepts (h : MdMaLine line) :
  parseCommand line = (.ok (some (.writeRejected 0)), [])
  := by
  obtain ⟨hkeyword, cmd, hline⟩ := h
  obtain ⟨c, hc, l, rfl⟩ : ∃ c, (c = 100 ∨ c = 97) ∧ ∃ l, line = 109 :: c :: l := by
    rcases hkeyword with ⟨l, rfl⟩ | ⟨l, rfl⟩
    · exact ⟨100, Or.inl rfl, l, rfl⟩
    · exact ⟨97, Or.inr rfl, l, rfl⟩
  have hdone := parseCommand_eq_some_iff.mp hline
  rw [nomParse_md_ma c hc] at hdone
  rwa [parseMdMa_done hdone] at hline

/-- What is drained is the block with its terminator only within the bounds. -/
theorem MsLine.resumesAt_iff (h : MsLine line n) (hbody : body.length = n) (rest : Bytes) :
  resumesAt (line ++ (body ++ crlfBytes ++ rest)) = some rest ↔ 0 < n ∧ n + 2 < 2 ^ 64
  := by
  have hlen : (body ++ crlfBytes ++ rest).length = n + 2 + rest.length := by
    simp [hbody, crlfBytes]
    omega
  constructor
  · intro hresume
    rcases Nat.eq_zero_or_pos n with rfl | hpos
    · rw [h.resumesAt_zero, Option.some.injEq] at hresume
      have heq := congrArg List.length hresume
      omega
    · refine ⟨hpos, ?_⟩
      by_contra hwrap
      have hd : disposition (.writeRejected n) = .drain ((n + 2) % 2 ^ 64) := by
        simp only [disposition, hpos.ne', if_false]
      have hmod := Nat.mod_lt (n + 2) (show 0 < 2 ^ 64 by decide)
      rw [resumesAt_drain (h.parseCommand_append _) hd (by omega), Option.some.injEq] at hresume
      have heq := congrArg List.length hresume
      rw [List.length_drop] at heq
      omega
  · rintro ⟨hpos, hn⟩
    apply h.resumesAt_of_bounds hbody hpos hn

/-- After an accepted `md` or `ma` line the connection resumes at the end of the line.
After an accepted `ms` line, its data block and the terminator of the block it resumes at
their end exactly if the length of the block is neither zero nor so large that the length
with the terminator does not fit 64 bits; what follows is then what the connection
completes, however the bytes are cut into reads. -/
theorem writes_resynchronise_iff (rest : Bytes) :
  (∀ line dataLen, MsLine line dataLen → ∀ body, body.length = dataLen →
      (resumesAt (line ++ (body ++ crlfBytes ++ rest)) = some rest
        ↔ 0 < dataLen ∧ dataLen + 2 < 2 ^ 64)
      ∧ (0 < dataLen ∧ dataLen + 2 < 2 ^ 64 →
        ∀ cfg reads, Delivers (line ++ (body ++ crlfBytes ++ rest)) reads →
          Completes cfg (handleConnection cfg reads) (response cfg (.writeRejected dataLen))
            [.writeRejected dataLen] rest))
    ∧ ∀ line, MdMaLine line →
      resumesAt (line ++ rest) = some rest
      ∧ ∀ cfg reads, Delivers (line ++ rest) reads →
        Completes cfg (handleConnection cfg reads) (response cfg (.writeRejected 0))
          [.writeRejected 0] rest
  := by
  constructor
  · intro line dataLen hline body hbody
    have hiff := hline.resumesAt_iff hbody rest
    refine ⟨hiff, ?_⟩
    intro hbounds cfg reads hreads
    apply Completes.uncons (session_of_resumesAt (hline.parseCommand_append _) (hiff.mpr hbounds))
    apply handleConnection_completes cfg hreads
  · intro line hline
    have hparse : parseCommand (line ++ rest) = (.ok (some (.writeRejected 0)), rest) := by
      simpa using parseCommand_append_some hline.accepts rest
    have hresume : resumesAt (line ++ rest) = some rest := resumesAt_continue hparse rfl
    refine ⟨hresume, ?_⟩
    intro cfg reads hreads
    apply Completes.uncons (session_of_resumesAt hparse hresume)
    apply handleConnection_completes cfg hreads

/-- A block that contains a command is skipped, and the `quit` after it is not. -/
theorem ms_block_is_skipped :
  MsLine (ascii "ms k 9\r\n") 9 ∧ MdMaLine (ascii "md k\r\n")
    ∧ resumesAt (ascii "ms k 9\r\n" ++ (ascii "version\r\n" ++ crlfBytes ++ ascii "quit\r\n"))
      = some (ascii "quit\r\n")
    ∧ resumesAt (ascii "md k\r\n" ++ ascii "quit\r\n") = some (ascii "quit\r\n")
  := by
  have hms : MsLine (ascii "ms k 9\r\n") 9 := ⟨by decide, by decide⟩
  have hmd : MdMaLine (ascii "md k\r\n") := ⟨by decide, .writeRejected 0, by decide⟩
  refine ⟨hms, hmd, ?_, ?_⟩
  · apply ((writes_resynchronise_iff _).1 _ _ hms _ (by decide)).1.mpr
    decide
  · apply ((writes_resynchronise_iff _).2 _ hmd).1

/-- After an `ms` command with an empty block the connection reads the terminator of the
block as a command, and ends before the `version` that follows. -/
theorem ms_empty_block_desynchronises :
  MsLine (ascii "ms k 0\r\n") 0
    ∧ resumesAt (ascii "ms k 0\r\n" ++ ([] ++ crlfBytes ++ ascii "version\r\n"))
      ≠ some (ascii "version\r\n")
    ∧ session (ascii "ms k 0\r\n" ++ ([] ++ crlfBytes ++ ascii "version\r\n"))
      = ([.writeRejected 0], .parseError)
    ∧ session (ascii "version\r\n") = ([.version], .eof)
  := by
  refine ⟨⟨?_, ?_⟩, ?_, ?_, ?_⟩
  · decide
  · decide
  · decide
  · decide
  · decide

end

end Server
