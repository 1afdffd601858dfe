import Mcfreeze.V5.Packing
import Mcfreeze.Lib.XxHash

/-!
# The block assembler and its sink

`BlockAssembler` (`v5/block.rs`) hands every block that it seals to a sink.  When the sink
fails, the block is lost and the assembler is poisoned.

As long as the sink succeeds, the blocks hold the records of the calls that were accepted, in
order, and a call that is rejected changes nothing.  Once the sink has failed, all calls fail.
-/

open Format

namespace V5

open Bytes

/-! ### The assembler -/

/-- An assembler, whether its sink has failed, and the blocks that were handed to the sink. -/
structure Assembler extends BlockAssembler where
  failed : Bool
  handed : List Bytes
  deriving DecidableEq, Repr

/-- The answer of the sink to a block, which may depend on the blocks before. -/
abbrev Sink := List Bytes → Bytes → Except Error Unit

/-- A call of the assembler. -/
inductive Push where
  | inline (fp vfp : UInt64) (stored : Bytes) (compressed : Bool)
  | stub (fp vfp : UInt64) (stub : Stub) (compressed : Bool)
  deriving DecidableEq, Repr

namespace Assembler

variable (H : Hash) (sink : Sink)

def new (blockSize : Nat) : Except Error Assembler :=
  match BlockAssembler.new blockSize with
  | .error e => .error e
  | .ok asm => .ok ⟨asm, false, []⟩

/-- Seal the current block and hand it to the sink. -/
def cut (s : Assembler) : Except Error Unit × Assembler :=
  let block := s.toBlockAssembler.cut H
  let res := sink s.handed block
  let failed := match res with
    | .error _ => true
    | .ok () => s.failed
  (res, { s with buf := [], failed := failed, handed := s.handed ++ [block] })

/-- Start a record, after sealing the current block if it has no room. -/
def pushHeader (s : Assembler) (fp vfp : UInt64) (payloadLen lengthFlags : Nat) :
    Except Error Unit × Assembler :=
  if s.failed then (.error .assemblerPoisoned, s)
  else if vfp = 0 then (.error (.panic "vfp 0 is the padding sentinel; bias it to 1"), s)
  else
    let enc := encodedLen payloadLen
    let capacity := s.blockSize - checksumLen
    if capacity < enc then (.error (.recordTooLarge enc capacity), s)
    else
      let room := if capacity < s.buf.length + enc then cut H sink s else (.ok (), s)
      match room with
      | (.error e, s) => (.error e, s)
      | (.ok (), s) =>
        let fences := if s.buf = [] then s.fences ++ [fenceOf fp] else s.fences
        (.ok (), { s with
          buf := s.buf ++ leBytes 8 vfp.toNat ++ leBytes 4 lengthFlags
          fences := fences })

def pushPayload (s : Assembler) (payload : Bytes) : Assembler :=
  { s with toBlockAssembler := s.toBlockAssembler.pushPayload payload }

def pushInline (s : Assembler) (fp vfp : UInt64) (stored : Bytes) (compressed : Bool) :
    Except Error Unit × Assembler :=
  if maxValueLen < stored.length then (.error (.valueTooLarge stored.length maxValueLen), s)
  else
    let lf := if compressed then stored.length ||| flagCompressed else stored.length
    match pushHeader H sink s fp vfp stored.length lf with
    | (.error e, s) => (.error e, s)
    | (.ok (), s) => (.ok (), s.pushPayload stored)

def pushStub (s : Assembler) (fp vfp : UInt64) (stub : Stub) (compressed : Bool) :
    Except Error Unit × Assembler :=
  if maxValueLen < stub.storedLen then (.error (.valueTooLarge stub.storedLen maxValueLen), s)
  else
    let lf := stub.storedLen ||| flagOutOfLine
    let lf := if compressed then lf ||| flagCompressed else lf
    match pushHeader H sink s fp vfp stubPayloadLen lf with
    | (.error e, s) => (.error e, s)
    | (.ok (), s) =>
      (.ok (), s.pushPayload (leBytes 8 stub.heapOffset ++ leBytes 4 stub.valueChecksum.toNat))

/-- One call. -/
def push (s : Assembler) : Push → Except Error Unit × Assembler
  | .inline fp vfp stored compressed => pushInline H sink s fp vfp stored compressed
  | .stub fp vfp stub compressed => pushStub H sink s fp vfp stub compressed

/-- Calls one after the other: what they return, and the assembler afterwards. -/
def pushAll : Assembler → List Push → List (Except Error Unit) × Assembler
  | s, [] => ([], s)
  | s, c :: calls =>
    let first := push H sink s c
    let rest := pushAll first.2 calls
    (first.1 :: rest.1, rest.2)

/-- Seal the last block; the fences of all blocks. -/
def finish (s : Assembler) : Except Error (List UInt32) × Assembler :=
  if s.failed then (.error .assemblerPoisoned, s)
  else
    let last := if s.buf = [] then (.ok (), s) else cut H sink s
    match last with
    | (.error e, s) => (.error e, s)
    | (.ok (), s) => (.ok s.fences, s)

end Assembler

/-! ### Calls -/

namespace Push

def fp : Push → UInt64
  | .inline fp _ _ _ => fp
  | .stub fp _ _ _ => fp

/-- The record of a call. -/
def record : Push → Record
  | .inline _ vfp stored compressed => .inline vfp stored compressed
  | .stub _ vfp st compressed => .stub vfp st compressed

def entry (c : Push) : Entry :=
  (c.fp, c.record)

/-- The arguments are what the types of the call can hold, and the fingerprint is not the
padding sentinel. -/
def Valid (c : Push) : Prop :=
  c.record.vfp ≠ 0 ∧ match c with
    | .inline _ _ _ _ => True
    | .stub _ _ st _ => st.heapOffset < 2 ^ 64

/-- The value is too long for the length field, or the record for a block. -/
inductive Rejected (blockSize : Nat) (c : Push) : Error → Prop where
  | value (h : maxValueLen < c.record.storedLen) :
      Rejected blockSize c (.valueTooLarge c.record.storedLen maxValueLen)
  | record (h : blockSize - checksumLen < encodedLen c.record.payload.length) :
      Rejected blockSize c
        (.recordTooLarge (encodedLen c.record.payload.length) (blockSize - checksumLen))

end Push

/-- The calls that were accepted. -/
def accepted : List Push → List (Except Error Unit) → List Push
  | c :: calls, .ok () :: results => c :: accepted calls results
  | _ :: calls, .error _ :: results => accepted calls results
  | _, _ => []

namespace Assembler

section

variable {H : Hash} {sink : Sink} {s s' : Assembler} {c : Push} {calls : List Push}
  {r : Except Error Unit}

/-- Every call is the same up to its record. -/
theorem push_eq (s : Assembler) (c : Push) :
  push H sink s c
    = if maxValueLen < c.record.storedLen then
        (.error (.valueTooLarge c.record.storedLen maxValueLen), s)
      else
        match pushHeader H sink s c.fp c.record.vfp c.record.payload.length c.record.lengthFlags with
        | (.error e, s) => (.error e, s)
        | (.ok (), s) => (.ok (), s.pushPayload c.record.payload)
  := by
  cases c with
  | inline fp vfp stored compressed => rfl
  | stub fp vfp st compressed =>
    have hlen : (Record.stub vfp st compressed).payload.length = stubPayloadLen := by
      simp [Record.payload, stubPayloadLen]
    simp only [push, pushStub, Push.record, Push.fp, hlen]
    rfl

/-! ### A sink that succeeds -/

/-- Starting a record is what it is without a sink, and the sealed block is handed over. -/
theorem pushHeader_of_sink (hsink : ∀ handed b, sink handed b = .ok ()) (hs : s.failed = false)
    (fp vfp : UInt64) (payloadLen lengthFlags : Nat) :
  pushHeader H sink s fp vfp payloadLen lengthFlags
    = match s.toBlockAssembler.pushHeader H fp vfp payloadLen lengthFlags with
      | .error e => (.error e, s)
      | .ok (sealed, asm) => (.ok (), ⟨asm, s.failed, s.handed ++ sealed.toList⟩)
  := by
  simp only [pushHeader, BlockAssembler.pushHeader, hs, Bool.false_eq_true, if_false]
  by_cases hvfp : vfp = 0
  · simp only [hvfp, if_true]
  · simp only [hvfp, if_false]
    by_cases hcap : s.blockSize - checksumLen < encodedLen payloadLen
    · simp only [hcap, if_true]
    · simp only [hcap, if_false]
      by_cases hfull : s.blockSize - checksumLen < s.buf.length + encodedLen payloadLen
      · simp [hfull, cut, hsink, hs]
      · simp [hfull, hs]

/-- The records of the calls so far are packed. -/
structure Assembled (H : Hash) (blockSize : Nat) (entries : List Entry) (s : Assembler) : Prop where
  blockSize : s.blockSize = blockSize
  failed : s.failed = false
  packed : ∃ parts cur, Packed H s.toBlockAssembler s.handed parts cur
    ∧ parts.flatten ++ cur = entries

theorem assembled_new {blockSize : Nat} (h : Assembler.new blockSize = .ok s) :
  Assembled H blockSize [] s
  := by
  rw [Assembler.new] at h
  split at h
  · simp at h
  · next asm hasm =>
    obtain rfl := Except.ok.inj h
    obtain ⟨hpacked, hsize⟩ := packed_new (H := H) hasm
    exact ⟨hsize, rfl, [], [], hpacked, rfl⟩

theorem fits_of_valid (hc : c.Valid) (hlen : ¬ maxValueLen < c.record.storedLen) :
  c.record.Fits
  := by
  have hle := Nat.not_lt.mp hlen
  cases c with
  | inline fp vfp stored compressed => exact ⟨hc.1, hle⟩
  | stub fp vfp st compressed => exact ⟨hc.1, hle, hc.2⟩

/-- A call adds its record, or it is rejected and changes nothing. -/
theorem Assembled.push {blockSize : Nat} {entries : List Entry} (h : Assembled H blockSize entries s)
    (hsink : ∀ handed b, sink handed b = .ok ()) (hc : c.Valid) :
  (∃ e, c.Rejected blockSize e ∧ push H sink s c = (.error e, s))
    ∨ ∃ s', push H sink s c = (.ok (), s') ∧ Assembled H blockSize (entries ++ [c.entry]) s'
  := by
  obtain ⟨hsize, hs, parts, cur, hpacked, rfl⟩ := h
  rw [push_eq]
  by_cases hlen : maxValueLen < c.record.storedLen
  · left
    exact ⟨_, .value hlen, if_pos hlen⟩
  · rw [if_neg hlen, pushHeader_of_sink hsink hs]
    cases hpush : s.toBlockAssembler.pushHeader H c.fp c.record.vfp c.record.payload.length
        c.record.lengthFlags with
    | error e =>
      left
      simp only [BlockAssembler.pushHeader] at hpush
      split at hpush
      · next hvfp => exact absurd hvfp hc.1
      · split at hpush
        · next hcap =>
          rw [← Except.error.inj hpush]
          rw [hsize] at hcap ⊢
          exact ⟨_, .record hcap, rfl⟩
        · simp at hpush
    | ok r =>
      right
      obtain ⟨sealed, asm⟩ := r
      obtain ⟨parts', cur', hpacked', hentries, hsize'⟩ :=
        hpacked.push (fun _ => fits_of_valid hc hlen) hpush
      exact ⟨_, rfl, hsize'.trans hsize, hs, parts', cur', hpacked', hentries⟩

/-- What a sequence of calls returns and leaves when the sink succeeds. -/
theorem Assembled.pushAll {blockSize : Nat} {entries : List Entry}
    (h : Assembled H blockSize entries s) (hsink : ∀ handed b, sink handed b = .ok ())
    (hcalls : ∀ c ∈ calls, c.Valid) :
  List.Forall₂ (fun c r => r = .ok () ∨ ∃ e, c.Rejected blockSize e ∧ r = .error e) calls
      (pushAll H sink s calls).1
    ∧ Assembled H blockSize
      (entries ++ (accepted calls (pushAll H sink s calls).1).map Push.entry)
      (pushAll H sink s calls).2
    ∧ (pushAll H sink s (accepted calls (pushAll H sink s calls).1)).2 = (pushAll H sink s calls).2
  := by
  induction calls generalizing s entries with
  | nil =>
    refine ⟨.nil, ?_, rfl⟩
    simpa [Assembler.pushAll, accepted] using h
  | cons c calls ih =>
    have hrest : ∀ c ∈ calls, c.Valid := fun c hc => hcalls c (List.mem_cons_of_mem _ hc)
    rcases h.push hsink (hcalls c List.mem_cons_self) with ⟨e, hrejected, hpush⟩ | ⟨s', hpush, h'⟩
    · obtain ⟨hresults, hassembled, hsame⟩ := ih h hrest
      simp only [Assembler.pushAll, hpush, accepted]
      exact ⟨.cons (.inr ⟨e, hrejected, rfl⟩) hresults, hassembled, hsame⟩
    · obtain ⟨hresults, hassembled, hsame⟩ := ih h' hrest
      simp only [Assembler.pushAll, hpush, accepted, List.map_cons]
      refine ⟨.cons (.inl rfl) hresults, ?_, hsame⟩
      rwa [List.append_assoc, List.singleton_append] at hassembled

/-- Finishing seals the last block. -/
theorem Assembled.finish {blockSize : Nat} {entries : List Entry}
    (h : Assembled H blockSize entries s) (hsink : ∀ handed b, sink handed b = .ok ()) :
  ∃ fences, (finish H sink s).1 = .ok fences
    ∧ Blocks H blockSize entries (finish H sink s).2.handed fences
  := by
  obtain ⟨hsize, hs, parts, cur, hpacked, rfl⟩ := h
  have hblocks := hpacked.finish
  rw [hsize] at hblocks
  by_cases hbuf : s.buf = []
  · simp only [BlockAssembler.finish, hbuf, if_true, Option.toList_none, List.append_nil] at hblocks
    simp only [Assembler.finish, hs, hbuf, Bool.false_eq_true, if_false, if_true]
    exact ⟨_, rfl, hblocks⟩
  · simp only [BlockAssembler.finish, hbuf, if_false, Option.toList_some] at hblocks
    simp only [Assembler.finish, hs, hbuf, Bool.false_eq_true, if_false, cut, hsink]
    exact ⟨_, rfl, hblocks⟩

/-! ### A sink that fails -/

/-- The sink has failed on one of the blocks that were handed to it. -/
def SinkFailed (sink : Sink) (handed : List Bytes) : Prop :=
  ∃ k b e, handed[k]? = some b ∧ sink (handed.take k) b = .error e

/-- The sink has failed on the blocks so far, or fails on the last one. -/
theorem sinkFailed_append (handed : List Bytes) (b : Bytes) :
  SinkFailed sink (handed ++ [b]) ↔ SinkFailed sink handed ∨ ∃ e, sink handed b = .error e
  := by
  constructor
  · rintro ⟨k, b', e, hget, hsink⟩
    by_cases hk : k < handed.length
    · left
      rw [List.getElem?_append_left hk] at hget
      rw [List.take_append_of_le_length (Nat.le_of_lt hk)] at hsink
      exact ⟨k, b', e, hget, hsink⟩
    · right
      have hlt : k < handed.length + 1 := by
        have := (List.getElem?_eq_some_iff.mp hget).1
        rwa [List.length_append] at this
      obtain rfl : k = handed.length := by omega
      obtain rfl : b = b' := by simpa using hget
      rw [List.take_left' rfl] at hsink
      exact ⟨e, hsink⟩
  · rintro (⟨k, b', e, hget, hsink⟩ | ⟨e, hsink⟩)
    · have hk := (List.getElem?_eq_some_iff.mp hget).1
      refine ⟨k, b', e, ?_, ?_⟩
      · rwa [List.getElem?_append_left hk]
      · rwa [List.take_append_of_le_length (Nat.le_of_lt hk)]
    · refine ⟨handed.length, b, e, by simp, ?_⟩
      rwa [List.take_left' rfl]

/-- The assembler knows whether its sink has failed. -/
def Tracks (sink : Sink) (s : Assembler) : Prop :=
  s.failed = true ↔ SinkFailed sink s.handed

/-- An operation that leaves a poisoned assembler has returned an error, and the assembler
still knows. -/
structure Reports {α : Type} (sink : Sink) (r : Except Error α × Assembler) : Prop where
  tracks : Tracks sink r.2
  error : r.2.failed = true → ∃ e, r.1 = .error e

/-- A cut reports a failure of the sink. -/
theorem cut_reports (h : Tracks sink s) (hs : s.failed = false) :
  Reports sink (cut H sink s)
  := by
  have hnot : ¬ SinkFailed sink s.handed := by
    intro hfailed
    have := h.mpr hfailed
    rw [hs] at this
    simp at this
  rw [cut]
  cases hsink : sink s.handed (s.toBlockAssembler.cut H) with
  | error e =>
    refine ⟨?_, fun _ => ⟨e, rfl⟩⟩
    rw [Tracks]
    dsimp only
    rw [sinkFailed_append]
    exact ⟨fun _ => .inr ⟨e, hsink⟩, fun _ => rfl⟩
  | ok u =>
    refine ⟨?_, ?_⟩
    · rw [Tracks]
      dsimp only
      rw [sinkFailed_append, hs]
      simp [hnot, hsink]
    · dsimp only
      rw [hs]
      simp

/-- The header of a record reports a failure of the sink. -/
theorem pushHeader_reports (h : Tracks sink s) (fp vfp : UInt64) (payloadLen lengthFlags : Nat) :
  Reports sink (pushHeader H sink s fp vfp payloadLen lengthFlags)
  := by
  rw [pushHeader]
  split
  · exact ⟨h, fun _ => ⟨_, rfl⟩⟩
  · next hs =>
    rw [Bool.not_eq_true] at hs
    split
    · exact ⟨h, fun _ => ⟨_, rfl⟩⟩
    · dsimp only
      split
      · exact ⟨h, fun _ => ⟨_, rfl⟩⟩
      · have hroom : Reports sink (if s.blockSize - checksumLen < s.buf.length + encodedLen payloadLen
            then cut H sink s else (.ok (), s)) := by
          split
          · apply cut_reports h hs
          · refine ⟨h, ?_⟩
            dsimp only
            rw [hs]
            simp
        split
        · next e s' heq =>
          rw [heq] at hroom
          exact ⟨hroom.tracks, fun _ => ⟨e, rfl⟩⟩
        · next s' heq =>
          rw [heq] at hroom
          refine ⟨hroom.tracks, ?_⟩
          intro hfailed
          obtain ⟨e, he⟩ := hroom.error hfailed
          simp at he

/-- A push reports a failure of the sink, also an earlier one. -/
theorem push_reports (h : Tracks sink s) (c : Push) :
  Reports sink (push H sink s c)
  := by
  rw [push_eq]
  split
  · exact ⟨h, fun _ => ⟨_, rfl⟩⟩
  · have hheader := pushHeader_reports (H := H) h c.fp c.record.vfp c.record.payload.length
      c.record.lengthFlags
    split
    · next e s' heq =>
      rw [heq] at hheader
      exact ⟨hheader.tracks, fun _ => ⟨e, rfl⟩⟩
    · next s' heq =>
      rw [heq] at hheader
      refine ⟨hheader.tracks, ?_⟩
      intro hfailed
      obtain ⟨e, he⟩ := hheader.error hfailed
      simp at he

/-- The end of the assembly reports a failure of the sink, also an earlier one. -/
theorem finish_reports (h : Tracks sink s) :
  Reports sink (finish H sink s)
  := by
  rw [finish]
  split
  · exact ⟨h, fun _ => ⟨_, rfl⟩⟩
  · next hs =>
    rw [Bool.not_eq_true] at hs
    have hlast : Reports sink (if s.buf = [] then (.ok (), s) else cut H sink s) := by
      split
      · refine ⟨h, ?_⟩
        dsimp only
        rw [hs]
        simp
      · apply cut_reports h hs
    dsimp only
    split
    · next e s' heq =>
      rw [heq] at hlast
      exact ⟨hlast.tracks, fun _ => ⟨e, rfl⟩⟩
    · next s' heq =>
      rw [heq] at hlast
      refine ⟨hlast.tracks, ?_⟩
      intro hfailed
      obtain ⟨e, he⟩ := hlast.error hfailed
      simp at he

/-- A poisoned assembler stays so. -/
theorem push_failed (hs : s.failed = true) (c : Push) :
  (push H sink s c).2.failed = true
  := by
  rw [push_eq]
  split
  · apply hs
  · simp only [pushHeader, hs, if_true]

theorem pushAll_tracks (h : Tracks sink s) (calls : List Push) :
  Tracks sink (pushAll H sink s calls).2
  := by
  induction calls generalizing s with
  | nil => apply h
  | cons c calls ih => apply ih (push_reports h c).tracks

/-- All calls on a poisoned assembler fail. -/
theorem pushAll_failed (h : Tracks sink s) (hs : s.failed = true) (calls : List Push) :
  ∀ r ∈ (pushAll H sink s calls).1, ∃ e, r = .error e
  := by
  induction calls generalizing s with
  | nil => simp [pushAll]
  | cons c calls ih =>
    have hnext : (push H sink s c).2.failed = true := push_failed hs c
    have hreports := push_reports (H := H) h c
    intro r hr
    rcases List.mem_cons.mp hr with rfl | hr
    · apply hreports.error hnext
    · apply ih hreports.tracks hnext r hr

/-- The call in which the sink fails, and all calls after it, return errors. -/
theorem pushAll_errors (h : Tracks sink s) (calls : List Push) (k : Nat)
    (hfailed : SinkFailed sink (pushAll H sink s (calls.take (k + 1))).2.handed) :
  ∀ j r, k ≤ j → (pushAll H sink s calls).1[j]? = some r → ∃ e, r = .error e
  := by
  induction calls generalizing s k with
  | nil => simp [pushAll]
  | cons c calls ih =>
    have hreports := push_reports (H := H) h c
    intro j r hkj hr
    rw [pushAll] at hr
    cases k with
    | zero =>
      have hnow : (push H sink s c).2.failed = true := hreports.tracks.mpr hfailed
      cases j with
      | zero =>
        obtain rfl := Option.some.inj hr
        apply hreports.error hnow
      | succ j =>
        rw [List.getElem?_cons_succ] at hr
        apply pushAll_failed hreports.tracks hnow calls r (List.mem_of_getElem? hr)
    | succ k =>
      obtain ⟨j, rfl⟩ : ∃ j', j = j' + 1 := ⟨j - 1, by omega⟩
      rw [List.getElem?_cons_succ] at hr
      apply ih hreports.tracks k hfailed j r (by omega) hr

end

end Assembler

/-! ### Assembling and scanning -/

section

open Assembler

variable {H : Hash} {s : Assembler} {blockSize : Nat}

/-- With a sink that succeeds, the calls are accepted or rejected without a trace, every block
has its size and passes the check, scanning the blocks gives back the accepted records, and
the fences are those of the first record of each block.  When the sink fails, that call and
all later ones return errors. -/
theorem assembling_and_scanning (hnew : Assembler.new blockSize = .ok s) (H : Hash)
    (calls : List Push) (hcalls : ∀ c ∈ calls, c.Valid) :
  (∀ sink : Sink, (∀ handed b, sink handed b = .ok ()) →
    List.Forall₂ (fun c r => r = .ok () ∨ ∃ e, c.Rejected blockSize e ∧ r = .error e) calls
        (pushAll H sink s calls).1
      ∧ (pushAll H sink s (accepted calls (pushAll H sink s calls).1)).2 = (pushAll H sink s calls).2
      ∧ (∀ b ∈ (finish H sink (pushAll H sink s calls).2).2.handed,
        b.length = blockSize ∧ verify H b = .ok ())
      ∧ (finish H sink (pushAll H sink s calls).2).2.handed.flatMap records
        = (accepted calls (pushAll H sink s calls).1).map (fun c => Except.ok c.record)
      ∧ ∃ fences, (finish H sink (pushAll H sink s calls).2).1 = .ok fences
        ∧ fences.length = (finish H sink (pushAll H sink s calls).2).2.handed.length
        ∧ ∃ parts : List (List Entry),
          parts.flatten = (accepted calls (pushAll H sink s calls).1).map Push.entry
          ∧ (∀ p ∈ parts, p ≠ [])
          ∧ (finish H sink (pushAll H sink s calls).2).2.handed.map records
            = parts.map (fun p => p.map fun e => Except.ok e.2)
          ∧ fences = parts.map headFence)
    ∧ ∀ sink : Sink,
      (∀ k, SinkFailed sink (pushAll H sink s (calls.take (k + 1))).2.handed →
        ∀ j r, k ≤ j → (pushAll H sink s calls).1[j]? = some r → ∃ e, r = .error e)
      ∧ (SinkFailed sink (finish H sink (pushAll H sink s calls).2).2.handed →
        ∃ e, (finish H sink (pushAll H sink s calls).2).1 = .error e)
  := by
  have htracks : ∀ sink, Tracks sink s := by
    intro sink
    rw [Assembler.new] at hnew
    split at hnew
    · simp at hnew
    · obtain rfl := Except.ok.inj hnew
      simp [Tracks, SinkFailed]
  constructor
  · intro sink hsink
    obtain ⟨hresults, hassembled, hsame⟩ := (assembled_new (H := H) hnew).pushAll hsink hcalls
    rw [List.nil_append] at hassembled
    obtain ⟨fences, hfences, parts, hflatten, hnonempty, hfits, hblocks, hheads⟩ :=
      hassembled.finish hsink
    have hrecords : (finish H sink (pushAll H sink s calls).2).2.handed.map records
        = parts.map (fun p => p.map fun e => Except.ok e.2) := by
      rw [hblocks, List.map_map]
      apply List.map_congr_left
      intro p hp
      rw [Function.comp_apply, (hfits p hp).records_sealedBlock, List.map_map]
      rfl
    refine ⟨hresults, hsame, ?_, ?_, fences, hfences, ?_, parts, hflatten, hnonempty, hrecords, hheads⟩
    · intro b hb
      rw [hblocks] at hb
      obtain ⟨p, hp, rfl⟩ := List.mem_map.mp hb
      exact ⟨(hfits p hp).length_sealedBlock, (hfits p hp).verify_sealedBlock⟩
    · rw [List.flatMap_def, hrecords, ← List.map_flatten, hflatten, List.map_map]
      rfl
    · rw [hheads, hblocks, List.length_map, List.length_map]
  · intro sink
    refine ⟨fun k => pushAll_errors (htracks sink) calls k, ?_⟩
    intro hfailed
    have hreports : Reports sink (finish H sink (pushAll H sink s calls).2) :=
      finish_reports (pushAll_tracks (htracks sink) calls)
    apply hreports.error (hreports.tracks.mpr hfailed)

end

/-- A value, one that does not fit a block, and a stub. -/
def threeCalls : List Push :=
  [.inline 5 7 [0, 0, 3] false, .inline 6 8 (List.replicate 40 1) true, .stub 9 7 ⟨64, 3, 1⟩ true]

/-- Blocks of 32 bytes take the first and the last call. -/
theorem assembling_and_scanning_three :
  ∃ s, Assembler.new 32 = .ok s
    ∧ (Assembler.finish ⟨XxHash.xxh64⟩ (fun _ _ => .ok ())
        (Assembler.pushAll ⟨XxHash.xxh64⟩ (fun _ _ => .ok ()) s threeCalls).2).2.handed.flatMap records
      = [.ok (.inline 7 [0, 0, 3] false), .ok (.stub 7 ⟨64, 3, 1⟩ true)]
  := by
  have hnew : Assembler.new 32 = .ok ⟨⟨32, [], []⟩, false, []⟩ := by decide +kernel
  have hvalid : ∀ c ∈ threeCalls, c.Valid := by
    simp [threeCalls, Push.Valid, Push.record, Record.vfp]
  refine ⟨_, hnew, ?_⟩
  obtain ⟨hok, -⟩ := assembling_and_scanning hnew ⟨XxHash.xxh64⟩ threeCalls hvalid
  obtain ⟨-, -, -, hrecords, -⟩ := hok (fun _ _ => .ok ()) fun _ _ => rfl
  rw [hrecords]
  decide +kernel

end V5
