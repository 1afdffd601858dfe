import Mcfreeze.V5.Block

/-!
# Scanning arbitrary bytes

The iterator over the records of a block (`v5/block.rs`), with every range it indexes and
every conversion to an array checked as the source checks them: outside of the block they
panic.  On no bytes does it: the iterator computes `Records.next`, it ends after at most one
record for every sixteen bytes, and a lookup finds nothing only where the scan came to the
padding or to the end of the block.
-/

open Format

namespace V5

open Bytes

/-! ### The iterator -/

/-- The bytes of a range, which has to lie in `b`. -/
def index (b : Bytes) (start stop : Nat) : Except Error Bytes :=
  if start ≤ stop ∧ stop ≤ b.length then .ok (slice b start stop)
  else .error (.panic "range end index out of range")

/-- The conversion of a slice to an array of `n` bytes. -/
def intoArray (n : Nat) (b : Bytes) : Except Error Bytes :=
  if b.length = n then .ok b
  else .error (.panic "called `Result::unwrap()` on an `Err` value")

/-- `n` bytes of a range, as a number. -/
def readLe (n : Nat) (b : Bytes) (start stop : Nat) : Except Error Nat := do
  let range ← index b start stop
  let array ← intoArray n range
  return leNat array

structure Records where
  block : Bytes
  usable : Nat
  pos : Nat
  failed : Bool
  deriving DecidableEq, Repr

namespace Records

def new (block : Bytes) : Records :=
  ⟨block, block.length - checksumLen, 0, false⟩

/-- `Iterator::next`: the item, if the iteration has not ended, and the state after it. -/
def step (s : Records) : Except Error (Option (Except Error Record) × Records) :=
  if s.failed ∨ s.usable < s.pos + headerLen then .ok (none, s)
  else do
    let vfp := UInt64.ofNat (← readLe 8 s.block s.pos (s.pos + 8))
    if vfp = 0 then return (none, s)
    else
      let lf ← readLe 4 s.block (s.pos + 8) (s.pos + headerLen)
      let length := lf &&& maxValueLen
      let outOfLine := lf &&& flagOutOfLine ≠ 0
      let compressed := decide (lf &&& flagCompressed ≠ 0)
      let payloadLen := if outOfLine then stubPayloadLen else length
      let start := s.pos + headerLen
      let stop := start + payloadLen
      if s.usable < stop then
        return (some (.error (.corruptBlock "record overruns block")), { s with failed := true })
      else
        let s' := { s with pos := align8 stop }
        let payload ← index s.block start stop
        if outOfLine then
          let heapOffset ← readLe 8 payload 0 8
          let valueChecksum ← readLe 4 payload 8 payload.length
          return (some (.ok (.stub vfp ⟨heapOffset, length, UInt32.ofNat valueChecksum⟩ compressed)), s')
        else return (some (.ok (.inline vfp payload compressed)), s')

/-- A full iteration; `none` if it has not ended within the fuel. -/
def collect : Nat → Records → Except Error (Option (List (Except Error Record)))
  | 0, _ => .ok none
  | fuel + 1, s =>
    match s.step with
    | .error e => .error e
    | .ok (none, _) => .ok (some [])
    | .ok (some item, s') => (collect fuel s').map (Option.map (item :: ·))

/-- The loop of `find`; `none` if it has not ended within the fuel. -/
def search (vfp : UInt64) : Nat → Records → Except Error (Option (Option Record))
  | 0, _ => .ok none
  | fuel + 1, s =>
    match s.step with
    | .error e => .error e
    | .ok (none, _) => .ok (some none)
    | .ok (some (.error e), _) => .error e
    | .ok (some (.ok record), s') =>
      if record.vfp = vfp then .ok (some (some record)) else search vfp fuel s'

end Records

/-- `verify`, with its ranges checked. -/
def verifyIndexed (H : Hash) (block : Bytes) : Except Error Unit :=
  if block.length < checksumLen then
    .error (.corruptBlock "block shorter than its checksum")
  else do
    let body := block.length - checksumLen
    let stored ← readLe 4 block body block.length
    let content ← index block 0 body
    if (checksum32 H content).toNat ≠ stored then .error .blockChecksumMismatch
    else .ok ()

/-- `find`, with its ranges checked. -/
def findIndexed (H : Hash) (fuel : Nat) (block : Bytes) (vfp : UInt64) :
    Except Error (Option (Option Record)) := do
  verifyIndexed H block
  (Records.new block).search vfp fuel

/-! ### What stands at a position -/

/-- The part of a block before its checksum. -/
def usableLen (b : Bytes) : Nat :=
  b.length - checksumLen

/-- The verify fingerprint of the header at a position. -/
def vfpAt (b : Bytes) (pos : Nat) : UInt64 :=
  UInt64.ofNat (leNat (slice b pos (pos + 8)))

/-- The length field of the header at a position. -/
def lengthFlagsAt (b : Bytes) (pos : Nat) : Nat :=
  leNat (slice b (pos + 8) (pos + headerLen))

/-- The end of the record whose header is at a position. -/
def stopAt (b : Bytes) (pos : Nat) : Nat :=
  pos + headerLen
    + if lengthFlagsAt b pos &&& flagOutOfLine ≠ 0 then stubPayloadLen
      else lengthFlagsAt b pos &&& maxValueLen

/-- The record whose header is at a position. -/
def recordAt (b : Bytes) (pos : Nat) : Record :=
  let lf := lengthFlagsAt b pos
  let payload := slice b (pos + headerLen) (stopAt b pos)
  if lf &&& flagOutOfLine ≠ 0 then
    .stub (vfpAt b pos)
      ⟨leNat (payload.take 8), lf &&& maxValueLen, UInt32.ofNat (leNat (payload.drop 8))⟩
      (decide (lf &&& flagCompressed ≠ 0))
  else .inline (vfpAt b pos) payload (decide (lf &&& flagCompressed ≠ 0))

/-- The scan ends at a position: no header fits, or it is the zero sentinel. -/
def Ends (b : Bytes) (pos : Nat) : Prop :=
  usableLen b < pos + headerLen ∨ vfpAt b pos = 0

instance (b : Bytes) (pos : Nat) : Decidable (Ends b pos) :=
  inferInstanceAs (Decidable (_ ∨ _))

/-- The record at a position overruns the usable area. -/
structure Overruns (b : Bytes) (pos : Nat) : Prop where
  header : ¬ Ends b pos
  overrun : usableLen b < stopAt b pos

/-- The record at a position lies in the usable area. -/
structure WellFormed (b : Bytes) (pos : Nat) : Prop where
  header : ¬ Ends b pos
  inside : stopAt b pos ≤ usableLen b

/-- The scan gets from a position to another one through well-formed records. -/
inductive Reaches (b : Bytes) : Nat → List Record → Nat → Prop
  | refl (pos : Nat) : Reaches b pos [] pos
  | record {pos stop : Nat} {rs : List Record} (h : WellFormed b pos)
    (hrest : Reaches b (align8 (stopAt b pos)) rs stop) : Reaches b pos (recordAt b pos :: rs) stop

/-- The block is long enough for a checksum, and its checksum is that of its content. -/
structure Sealed (H : Hash) (b : Bytes) : Prop where
  length : checksumLen ≤ b.length
  checksum : (checksum32 H (b.take (usableLen b))).toNat = leNat (b.drop (usableLen b))

section

variable {b : Bytes} {pos stop : Nat} {rs : List Record}

theorem Records.next_eq (b : Bytes) (pos : Nat) :
  Records.next b pos
    = if usableLen b < pos + headerLen then none
      else if vfpAt b pos = 0 then none
      else if usableLen b < stopAt b pos then
        some (.error (.corruptBlock "record overruns block"), usableLen b)
      else some (.ok (recordAt b pos), align8 (stopAt b pos))
  :=
  rfl

theorem Records.next_of_ends (h : Ends b pos) :
  Records.next b pos = none
  := by
  rw [Records.next_eq]
  rcases h with h | h
  · rw [if_pos h]
  · rw [if_pos h, ite_self]

theorem Records.next_of_overruns (h : Overruns b pos) :
  Records.next b pos = some (.error (.corruptBlock "record overruns block"), usableLen b)
  := by
  obtain ⟨hfits, hvfp⟩ := not_or.mp h.header
  rw [Records.next_eq, if_neg hfits, if_neg hvfp, if_pos h.overrun]

theorem Records.next_of_wellFormed (h : WellFormed b pos) :
  Records.next b pos = some (.ok (recordAt b pos), align8 (stopAt b pos))
  := by
  obtain ⟨hfits, hvfp⟩ := not_or.mp h.header
  rw [Records.next_eq, if_neg hfits, if_neg hvfp, if_neg (Nat.not_lt.mpr h.inside)]

/-- At each position the block ends, a record overruns it, or there is one. -/
theorem cases_at (b : Bytes) (pos : Nat) :
  Ends b pos ∨ Overruns b pos ∨ WellFormed b pos
  := by
  by_cases hends : Ends b pos
  · left
    exact hends
  · right
    rcases Nat.lt_or_ge (usableLen b) (stopAt b pos) with h | h
    · left
      exact ⟨hends, h⟩
    · right
      exact ⟨hends, h⟩

/-- A well-formed record takes at least one aligned header, and leaves room for the
checksum. -/
theorem WellFormed.advances (h : WellFormed b pos) (hpos : pos % 8 = 0) :
  pos + 16 ≤ align8 (stopAt b pos) ∧ align8 (stopAt b pos) % 8 = 0 ∧ pos + 16 ≤ b.length
  := by
  have hfits := (not_or.mp h.header).1
  have hstop : pos + headerLen ≤ stopAt b pos := Nat.le_add_right _ _
  have hle := le_align8 (stopAt b pos)
  have hmod := align8_mod (stopAt b pos)
  simp only [usableLen, headerLen, checksumLen] at hfits hstop
  omega

theorem Overruns.header_inside (h : Overruns b pos) :
  pos + 16 ≤ b.length
  := by
  have hfits := (not_or.mp h.header).1
  simp only [usableLen, headerLen, checksumLen] at hfits
  omega

/-- From every aligned position the scan comes to its end or to a record that overruns. -/
theorem exists_reaches (b : Bytes) (pos : Nat) (hpos : pos % 8 = 0) :
  ∃ rs stop, Reaches b pos rs stop ∧ (Ends b stop ∨ Overruns b stop)
  := by
  induction hn : b.length - pos using Nat.strong_induction_on generalizing pos with
  | _ n ih =>
    rcases cases_at b pos with hends | hover | hwf
    · exact ⟨[], pos, .refl pos, .inl hends⟩
    · exact ⟨[], pos, .refl pos, .inr hover⟩
    · obtain ⟨hadv, hmod, hroom⟩ := hwf.advances hpos
      obtain ⟨rs, stop, hreach, hstop⟩ := ih _ (by omega) _ hmod rfl
      exact ⟨_, stop, .record hwf hreach, hstop⟩

theorem Reaches.aligned (h : Reaches b pos rs stop) (hpos : pos % 8 = 0) :
  stop % 8 = 0 ∧ pos + 16 * rs.length ≤ stop
  := by
  induction h with
  | refl pos => simp [hpos]
  | record hwf hrest ih =>
    obtain ⟨hadv, hmod, -⟩ := hwf.advances hpos
    obtain ⟨hstop, hle⟩ := ih hmod
    rw [List.length_cons]
    omega

/-- Each record takes at least sixteen bytes. -/
theorem Reaches.length_le (h : Reaches b pos rs stop) (hpos : pos % 8 = 0) (hne : rs ≠ []) :
  pos + 16 * rs.length ≤ b.length
  := by
  induction h with
  | refl pos => exact absurd rfl hne
  | @record pos stop rs hwf hrest ih =>
    obtain ⟨hadv, hmod, hroom⟩ := hwf.advances hpos
    rw [List.length_cons]
    cases rs with
    | nil => simpa using hroom
    | cons r rs =>
      have hle := ih hmod (by simp)
      omega

/-- The item after the well-formed records: an error if the next record overruns. -/
def lastItems (b : Bytes) (stop : Nat) : List (Except Error Record) :=
  if Ends b stop then []
  else [.error (.corruptBlock "record overruns block")]

theorem lastItems_of_ends (h : Ends b stop) :
  lastItems b stop = []
  := by
  rw [lastItems, if_pos h]

theorem lastItems_of_overruns (h : Overruns b stop) :
  lastItems b stop = [.error (.corruptBlock "record overruns block")]
  := by
  rw [lastItems, if_neg h.header]

/-- What the iteration from a position yields. -/
def itemsOf (b : Bytes) (rs : List Record) (stop : Nat) : List (Except Error Record) :=
  rs.map .ok ++ lastItems b stop

/-- Every item of an iteration takes sixteen bytes of the block. -/
theorem Reaches.length_itemsOf (h : Reaches b 0 rs stop) (hstop : Ends b stop ∨ Overruns b stop) :
  (itemsOf b rs stop).length ≤ b.length / 16
  := by
  have halign := h.aligned rfl
  rw [itemsOf, List.length_append, List.length_map]
  rcases hstop with hends | hover
  · rw [lastItems_of_ends hends, List.length_nil]
    rcases List.eq_nil_or_concat rs with rfl | hne
    · simp
    · have hle := h.length_le rfl (by obtain ⟨l, r, rfl⟩ := hne; simp)
      omega
  · have hroom := hover.header_inside
    rw [lastItems_of_overruns hover, List.length_singleton]
    omega

/-- The records are those up to the stop, with the error there if it overruns. -/
theorem recordsFrom_of_reaches (h : Reaches b pos rs stop) (hstop : Ends b stop ∨ Overruns b stop)
    {fuel : Nat} (hfuel : rs.length < fuel) :
  recordsFrom b fuel pos = itemsOf b rs stop
  := by
  induction h generalizing fuel with
  | refl pos =>
    obtain ⟨fuel, rfl⟩ := Nat.exists_eq_succ_of_ne_zero (Nat.ne_of_gt hfuel)
    rcases hstop with hends | hover
    · rw [recordsFrom, Records.next_of_ends hends, itemsOf, lastItems_of_ends hends]
      rfl
    · rw [recordsFrom, Records.next_of_overruns hover, itemsOf, lastItems_of_overruns hover]
      rfl
  | record hwf hrest ih =>
    rw [List.length_cons] at hfuel
    obtain ⟨fuel, rfl⟩ := Nat.exists_eq_succ_of_ne_zero (by omega : fuel ≠ 0)
    rw [recordsFrom, Records.next_of_wellFormed hwf]
    dsimp only
    rw [ih hstop (by omega)]
    rfl

theorem records_of_reaches (h : Reaches b 0 rs stop) (hstop : Ends b stop ∨ Overruns b stop) :
  records b = itemsOf b rs stop
  := by
  apply recordsFrom_of_reaches h hstop
  have hle := h.length_itemsOf hstop
  rw [itemsOf, List.length_append, List.length_map] at hle
  omega

/-! ### The iterator stays in the block -/

theorem index_of_le {start : Nat} (hle : start ≤ stop) (hstop : stop ≤ b.length) :
  index b start stop = .ok (slice b start stop)
  := by
  rw [index, if_pos ⟨hle, hstop⟩]

theorem length_slice {start : Nat} (hstop : stop ≤ b.length) :
  (slice b start stop).length = stop - start
  := by
  rw [slice, List.length_take, List.length_drop]
  omega

theorem readLe_of_le {n start : Nat} (hn : start + n = stop) (hstop : stop ≤ b.length) :
  readLe n b start stop = .ok (leNat (slice b start stop))
  := by
  have hlen : (slice b start stop).length = n := by
    rw [length_slice hstop]
    omega
  rw [readLe, index_of_le (by omega) hstop]
  simp only [bind, Except.bind, intoArray, hlen, if_true]
  rfl

namespace Records

/-- The state of the iterator at a position. -/
def scanning (b : Bytes) (pos : Nat) : Records :=
  ⟨b, usableLen b, pos, false⟩

theorem step_of_failed {s : Records} (h : s.failed = true) :
  s.step = .ok (none, s)
  := by
  rw [step, if_pos (Or.inl h)]

/-- Where a header fits, reading its two fields stays in the block. -/
theorem readLe_header (h : ¬ usableLen b < pos + headerLen) :
  readLe 8 b pos (pos + 8) = .ok (leNat (slice b pos (pos + 8)))
    ∧ readLe 4 b (pos + 8) (pos + headerLen) = .ok (lengthFlagsAt b pos)
  := by
  have hroom : pos + 16 ≤ b.length := by
    simp only [usableLen, headerLen, checksumLen] at h
    omega
  constructor
  · apply readLe_of_le rfl
    omega
  · apply readLe_of_le rfl
    omega

theorem step_of_ends (h : Ends b pos) :
  step (scanning b pos) = .ok (none, scanning b pos)
  := by
  by_cases hfits : usableLen b < pos + headerLen
  · simp only [step, scanning, hfits, or_true, if_true]
  · obtain ⟨hvfp, -⟩ := readLe_header hfits
    have hzero : UInt64.ofNat (leNat (slice b pos (pos + 8))) = 0 := h.resolve_left hfits
    simp only [step, scanning, Bool.false_eq_true, hfits, or_self, if_false, hvfp, bind, Except.bind, hzero,
      if_true]
    rfl

/-- A scan at a record that overruns the block fails. -/
theorem step_of_overruns (h : Overruns b pos) :
  step (scanning b pos)
    = .ok (some (.error (.corruptBlock "record overruns block")), { scanning b pos with failed := true })
  := by
  obtain ⟨hfits, hne⟩ := not_or.mp h.header
  obtain ⟨hvfp, hlf⟩ := readLe_header hfits
  have hover := h.overrun
  simp only [stopAt, ne_eq] at hover
  rw [vfpAt] at hne
  simp only [step, scanning, Bool.false_eq_true, hfits, or_self, if_false, hvfp, hlf, bind, Except.bind, hne,
    ne_eq, hover, if_true]
  rfl

/-- The two fields of a stub are the two parts of its payload. -/
theorem readLe_stub {payload : Bytes} (h : payload.length = stubPayloadLen) :
  readLe 8 payload 0 8 = .ok (leNat (payload.take 8))
    ∧ readLe 4 payload 8 payload.length = .ok (leNat (payload.drop 8))
  := by
  rw [stubPayloadLen] at h
  constructor
  · rw [readLe_of_le rfl (by omega), slice_zero]
  · rw [readLe_of_le (by omega) le_rfl, slice, List.take_of_length_le (by rw [List.length_drop])]

/-- A scan at a record gives it, and goes on behind it. -/
theorem step_of_wellFormed (h : WellFormed b pos) :
  step (scanning b pos) = .ok (some (.ok (recordAt b pos)), scanning b (align8 (stopAt b pos)))
  := by
  obtain ⟨hfits, hne⟩ := not_or.mp h.header
  obtain ⟨hvfp, hlf⟩ := readLe_header hfits
  have hinside := h.inside
  have hlen : stopAt b pos ≤ b.length := by
    rw [usableLen] at hinside
    omega
  rw [vfpAt] at hne
  by_cases hstub : lengthFlagsAt b pos &&& flagOutOfLine = 0
  · have hstop : stopAt b pos = pos + headerLen + (lengthFlagsAt b pos &&& maxValueLen) := by
      rw [stopAt, if_neg (not_not.mpr hstub)]
    rw [hstop] at hinside hlen
    simp only [step, scanning, Bool.false_eq_true, hfits, or_self, if_false, hvfp, hlf, bind, Except.bind,
      hne, ne_eq, hstub, not_true_eq_false, Nat.not_lt.mpr hinside,
      index_of_le (Nat.le_add_right _ _) hlen, recordAt, hstop]
    rfl
  · have hstop : stopAt b pos = pos + headerLen + stubPayloadLen := by
      rw [stopAt, if_pos hstub]
    rw [hstop] at hinside hlen
    obtain ⟨hoffset, hchecksum⟩ := readLe_stub
      (show (slice b (pos + headerLen) (pos + headerLen + stubPayloadLen)).length = stubPayloadLen by
        rw [length_slice hlen, Nat.add_sub_cancel_left])
    simp only [step, scanning, Bool.false_eq_true, hfits, or_self, if_false, hvfp, hlf, bind, Except.bind,
      hne, ne_eq, hstub, not_false_eq_true, if_true, Nat.not_lt.mpr hinside,
      index_of_le (Nat.le_add_right _ _) hlen, hoffset, hchecksum, recordAt, hstop]
    rfl

/-- The scan collects the records up to the stop. -/
theorem collect_of_reaches (h : Reaches b pos rs stop) (hstop : Ends b stop ∨ Overruns b stop)
    {fuel : Nat} (hfuel : (itemsOf b rs stop).length < fuel) :
  collect fuel (scanning b pos) = .ok (some (itemsOf b rs stop))
  := by
  induction h generalizing fuel with
  | refl pos =>
    obtain ⟨fuel, rfl⟩ := Nat.exists_eq_succ_of_ne_zero (Nat.ne_of_gt (Nat.zero_lt_of_lt hfuel))
    rcases hstop with hends | hover
    · rw [collect, step_of_ends hends, itemsOf, lastItems_of_ends hends]
      rfl
    · rw [itemsOf, lastItems_of_overruns hover] at hfuel ⊢
      obtain ⟨fuel, rfl⟩ := Nat.exists_eq_succ_of_ne_zero (Nat.ne_of_gt (Nat.lt_of_succ_lt_succ hfuel))
      rw [collect, step_of_overruns hover]
      dsimp only
      rw [collect, step_of_failed rfl]
      rfl
  | @record pos stop rs hwf hrest ih =>
    obtain ⟨fuel, rfl⟩ := Nat.exists_eq_succ_of_ne_zero (Nat.ne_of_gt (Nat.zero_lt_of_lt hfuel))
    rw [collect, step_of_wellFormed hwf]
    dsimp only
    rw [ih hstop (Nat.lt_of_succ_lt_succ hfuel)]
    rfl

/-- The loop of `find` searches what a full iteration yields. -/
theorem search_of_collect {vfp : UInt64} {fuel : Nat} {s : Records}
    {items : List (Except Error Record)} (h : collect fuel s = .ok (some items)) :
  search vfp fuel s = (findIn vfp items).map some
  := by
  induction fuel generalizing s items with
  | zero => simp [collect] at h
  | succ fuel ih =>
    rw [collect] at h
    rw [search]
    split at h
    · simp at h
    · next hstep =>
      obtain rfl : [] = items := by simpa using h
      rw [hstep]
      rfl
    · next item s' hstep =>
      cases hrest : collect fuel s' with
      | error e => simp [hrest, Except.map] at h
      | ok r =>
        obtain ⟨items', rfl, rfl⟩ : ∃ items', r = some items' ∧ item :: items' = items := by
          simpa [hrest, Except.map, Option.map_eq_some_iff] using h
        rw [hstep]
        cases item with
        | error e => rfl
        | ok record =>
          dsimp only
          rw [findIn]
          split
          · rfl
          · apply ih hrest

end Records

/-! ### Finding a record -/

theorem verify_eq (H : Hash) (b : Bytes) :
  verify H b
    = if b.length < checksumLen then .error (.corruptBlock "block shorter than its checksum")
      else if (checksum32 H (b.take (usableLen b))).toNat ≠ leNat (b.drop (usableLen b)) then
        .error .blockChecksumMismatch
      else .ok ()
  :=
  rfl

/-- The verification with its index accesses is the verification. -/
theorem verifyIndexed_eq (H : Hash) (b : Bytes) :
  verifyIndexed H b = verify H b
  := by
  rw [verifyIndexed, verify_eq]
  split
  · rfl
  · next hlen =>
    rw [checksumLen] at hlen
    have hstored : readLe 4 b (b.length - checksumLen) b.length = .ok (leNat (b.drop (usableLen b))) := by
      rw [checksumLen, readLe_of_le (by omega) le_rfl, slice,
        List.take_of_length_le (by rw [List.length_drop])]
      rfl
    have hcontent : index b 0 (b.length - checksumLen) = .ok (b.take (usableLen b)) := by
      rw [index_of_le (Nat.zero_le _) (Nat.sub_le _ _), slice_zero]
      rfl
    dsimp only
    rw [hstored, hcontent]
    rfl

/-- A block is accepted exactly when it is sealed. -/
theorem verify_eq_ok_iff {H : Hash} :
  verify H b = .ok () ↔ Sealed H b
  := by
  rw [verify_eq]
  constructor
  · intro h
    split at h
    · simp at h
    · next hlen =>
      split at h
      · simp at h
      · next hsum => exact ⟨Nat.not_lt.mp hlen, not_not.mp hsum⟩
  · intro h
    rw [if_neg (Nat.not_lt.mpr h.length), if_neg (not_not.mpr h.checksum)]

/-- Records with other fingerprints are passed over. -/
theorem findIn_append {vfp : UInt64} {rest : List (Except Error Record)}
    (h : ∀ r ∈ rs, r.vfp ≠ vfp) :
  findIn vfp (rs.map .ok ++ rest) = findIn vfp rest
  := by
  induction rs with
  | nil => rfl
  | cons r rs ih =>
    rw [List.map_cons, List.cons_append, findIn, if_neg (h r List.mem_cons_self)]
    apply ih
    intro r' hr'
    apply h r' (List.mem_cons_of_mem r hr')

/-- A search finds nothing only when no record has the fingerprint. -/
theorem findIn_eq_none {vfp : UInt64} {rest : List (Except Error Record)}
    (h : findIn vfp (rs.map .ok ++ rest) = .ok none) :
  (∀ r ∈ rs, r.vfp ≠ vfp) ∧ findIn vfp rest = .ok none
  := by
  induction rs with
  | nil => exact ⟨by simp, h⟩
  | cons r rs ih =>
    rw [List.map_cons, List.cons_append, findIn] at h
    split at h
    · simp at h
    · next hne =>
      obtain ⟨hrs, hrest⟩ := ih h
      exact ⟨List.forall_mem_cons.mpr ⟨hne, hrs⟩, hrest⟩

/-- The search among items does not panic. -/
theorem findIn_ne_panic (vfp : UInt64) (rs : List Record) (msg : String) :
  findIn vfp (itemsOf b rs stop) ≠ .error (.panic msg)
  := by
  induction rs with
  | nil =>
    rw [itemsOf, lastItems]
    split <;> simp [findIn]
  | cons r rs ih =>
    rw [itemsOf, List.map_cons, List.cons_append, findIn]
    split
    · simp
    · apply ih

theorem find_of_sealed {H : Hash} {vfp : UInt64} (hs : Sealed H b) :
  find H b vfp = findIn vfp (records b)
  := by
  rw [find, verify_eq_ok_iff.mpr hs]

theorem sealed_of_find {H : Hash} {vfp : UInt64} {o : Option Record} (h : find H b vfp = .ok o) :
  Sealed H b
  := by
  rw [find] at h
  split at h
  · simp at h
  · next hverify => apply verify_eq_ok_iff.mp hverify

/-- A search does not panic. -/
theorem find_ne_panic (H : Hash) (b : Bytes) (vfp : UInt64) (msg : String) :
  find H b vfp ≠ .error (.panic msg)
  := by
  obtain ⟨rs, stop, hreach, hstop⟩ := exists_reaches b 0 rfl
  rw [find]
  split
  · next e hverify =>
    rw [verify_eq] at hverify
    split at hverify
    · simp [← Except.error.inj hverify]
    · split at hverify
      · simp [← Except.error.inj hverify]
      · simp at hverify
  · rw [records_of_reaches hreach hstop]
    apply findIn_ne_panic

/-- On any bytes, a full iteration and a lookup end without a panic, within one step for
every sixteen bytes and one more.  Each record takes at least an aligned header.  A lookup
succeeds only on a block whose checksum matches; a record that overruns before the first
match is an error; and nothing is found only if the scan got to its end through well-formed
records with other fingerprints. -/
theorem find_scans (H : Hash) (b : Bytes) (vfp : UInt64) :
  (∀ extra, (Records.new b).collect (b.length / 16 + 1 + extra) = .ok (some (records b)))
    ∧ (∀ extra, findIndexed H (b.length / 16 + 1 + extra) b vfp = (find H b vfp).map some)
    ∧ (∀ msg, find H b vfp ≠ .error (.panic msg))
    ∧ (records b).length ≤ b.length / 16
    ∧ (∀ rs pos, Reaches b 0 rs pos → WellFormed b pos → pos + 16 ≤ align8 (stopAt b pos))
    ∧ (∀ o, find H b vfp = .ok o → Sealed H b)
    ∧ (∀ rs pos, Reaches b 0 rs pos → Overruns b pos → (∀ r ∈ rs, r.vfp ≠ vfp) →
      ∃ e, find H b vfp = .error e)
    ∧ (find H b vfp = .ok none →
      ∃ rs pos, Reaches b 0 rs pos ∧ Ends b pos ∧ ∀ r ∈ rs, r.vfp ≠ vfp)
  := by
  obtain ⟨rs, stop, hreach, hstop⟩ := exists_reaches b 0 rfl
  have hrecords := records_of_reaches hreach hstop
  have hcount := hreach.length_itemsOf hstop
  have hcollect : ∀ extra,
      (Records.new b).collect (b.length / 16 + 1 + extra) = .ok (some (records b)) := by
    intro extra
    rw [hrecords]
    apply Records.collect_of_reaches hreach hstop
    omega
  refine ⟨hcollect, ?_, find_ne_panic H b vfp, ?_, ?_, fun o => sealed_of_find, ?_, ?_⟩
  · intro extra
    rw [findIndexed, verifyIndexed_eq, find]
    cases verify H b with
    | error e => rfl
    | ok u => apply Records.search_of_collect (hcollect extra)
  · rw [hrecords]
    exact hcount
  · intro rs' pos hreach' hwf
    apply (hwf.advances (hreach'.aligned rfl).1).1
  · intro rs' pos hreach' hover hne
    cases hverify : verify H b with
    | error e => exact ⟨e, by rw [find, hverify]⟩
    | ok u =>
      rw [find_of_sealed (verify_eq_ok_iff.mp hverify), records_of_reaches hreach' (Or.inr hover),
        itemsOf, lastItems_of_overruns hover, findIn_append hne]
      exact ⟨_, rfl⟩
  · intro hnone
    rw [find_of_sealed (sealed_of_find hnone), hrecords] at hnone
    obtain ⟨hne, hlast⟩ := findIn_eq_none hnone
    refine ⟨rs, stop, hreach, ?_, hne⟩
    rcases hstop with hends | hover
    · exact hends
    · rw [lastItems_of_overruns hover] at hlast
      simp [findIn] at hlast

end

end V5
