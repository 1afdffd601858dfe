import Mcfreeze.Format.Desc
import Mcfreeze.Lib.JsonPrefix

/-!
# The file meta.json

`meta.json` through the runs of the loader on one directory, each killed anywhere: the
builders publish it when the snapshot is complete (`write_meta` in `v4/writer.rs`, `finalize`
in `v5/builder.rs`), and the command line patches it (`patch_meta_descriptor`).  Not all of
these writes are atomic, so the file may be cut off.  A reader that comes during a write
finds what it would find if the writer had been killed then.

What the file describes is kept apart from the file.  Loading succeeds exactly if the last
write was not cut off, and then it gives what that write described.
-/

open Format

namespace Format.Desc

/-! ### Writes -/

/-- How the V5 builder publishes: a rename, or in place. -/
inductive MarkerMode where
  | rename
  | directWrite
  deriving DecidableEq, Repr

/-- What `fs::write` leaves in the file when all of it is written, or when it was killed
before the last byte. -/
def fsWrite (bytes : Bytes) : Option Nat → Bytes
  | none => bytes
  | some n => bytes.dropLast.take n

/-- `write_marker`. -/
def writeMarker (mode : MarkerMode) (bytes : Bytes) (killed : Option Nat) (file : Option Bytes) :
    Option Bytes :=
  match mode, killed with
  | .rename, some _ => file
  | _, _ => some (fsWrite bytes killed)

/-- What is done to `meta.json`, and after how many bytes it is killed, if it is. -/
inductive Event where
  | finalize (mode : MarkerMode) (d : VersionedMeta) (killed : Option Nat)
  | patch (encoding : Json) (killed : Option Nat)

/-- The contents of `meta.json` after an event. -/
def Event.run (doubles : Json.Doubles) (file : Option Bytes) : Event → Option Bytes
  | .finalize mode d killed =>
    match d with
    | .v4 _ => some (fsWrite (toStringPretty doubles d.toJson) killed)
    | .v5 _ => writeMarker mode (toStringPretty doubles d.toJson) killed file
  | .patch encoding killed =>
    match file.bind (patchMetaDescriptor doubles encoding) with
    | none => file
    | some bytes => some (fsWrite bytes killed)

/-- The metadata fits, and the encodings are values. -/
def Event.Ok : Event → Prop
  | .finalize _ d _ => d.Ok
  | .patch encoding _ => IsValue 127 encoding

/-! ### What is described -/

/-- What `meta.json` is good for. -/
inductive Described where
  | nothing
  | torn
  | complete (d : VersionedMeta)

/-- A write that may be cut off. -/
def Described.write (d : VersionedMeta) : Option Nat → Described
  | none => .complete d
  | some _ => .torn

/-- What is described after an event. -/
def Described.run (g : UInt64 → UInt64) (m : Described) : Event → Described
  | .finalize mode d killed =>
    match d, mode, killed with
    | .v5 _, .rename, some _ => m
    | d, _, killed => .write d killed
  | .patch encoding killed =>
    match m with
    | .complete d => .write ((d.reread g).setEncoding encoding) killed
    | m => m

/-! ### The file and what it describes -/

/-- The file was cut off from the text of an object. -/
def CutOff (doubles : Json.Doubles) (bytes : Bytes) : Prop :=
  ∃ ms, (Json.obj ms).Writable ∧ (Json.obj ms).depth ≤ recursionLimit
    ∧ bytes <+: toStringPretty doubles (.obj ms) ∧ bytes ≠ toStringPretty doubles (.obj ms)

/-- The file contains what is described. -/
def Described.Of (doubles : Json.Doubles) (file : Option Bytes) : Described → Prop
  | .nothing => file = none
  | .torn => ∃ bytes ∈ file, CutOff doubles bytes
  | .complete d => ∃ doc, d.HeldBy doc ∧ file = some (toStringPretty doubles doc)

theorem CutOff.readBytes {doubles : Json.Doubles} {bytes : Bytes} (h : CutOff doubles bytes) :
  Json.readBytes doubles.parse recursionLimit bytes = none
  := by
  obtain ⟨ms, hwritable, hdepth, hprefix, hne⟩ := h
  exact Json.readBytes_cut (Json.pretty_lawful (fun _ h => by cases h) doubles) hwritable hdepth
    hprefix hne

/-- A file that was cut off is not loaded. -/
theorem CutOff.load {doubles : Json.Doubles} {bytes : Bytes} (h : CutOff doubles bytes)
    (m : VersionedMeta) :
  load doubles (some bytes) ≠ .ok m
  := by
  have hread := h.readBytes
  rw [Json.readBytes] at hread
  unfold Desc.load
  cases hs : Json.ofBytes bytes with
  | none => simp [hs]
  | some s =>
    rw [hs, Option.bind_some] at hread
    simp [hs, hread]

theorem CutOff.patch {doubles : Json.Doubles} {bytes : Bytes} (h : CutOff doubles bytes)
    (encoding : Json) :
  patchMetaDescriptor doubles encoding bytes = none
  := by
  rw [patchMetaDescriptor, h.readBytes, Option.bind_none, Option.map_none]

theorem VersionedMeta.HeldBy.isObj {doc : Json} {d : VersionedMeta} (h : d.HeldBy doc) :
  ∃ ms, doc = .obj ms ∧ (Json.obj ms).Writable ∧ (Json.obj ms).depth ≤ recursionLimit
  := by
  cases d with
  | v4 p =>
    obtain ⟨ms, rfl⟩ := h.1.isObj
    exact ⟨ms, rfl, h.1.writable, h.1.depth_le⟩
  | v5 p =>
    obtain ⟨ms, rfl⟩ := h.1.isObj
    exact ⟨ms, rfl, h.1.writable, h.1.depth_le⟩

/-- Whether it is cut off or not, a write leaves what is described. -/
theorem VersionedMeta.HeldBy.write {doc : Json} {d : VersionedMeta} (h : d.HeldBy doc)
    (doubles : Json.Doubles) (killed : Option Nat) :
  (Described.write d killed).Of doubles (some (fsWrite (toStringPretty doubles doc) killed))
  := by
  cases killed with
  | none => exact ⟨doc, h, rfl⟩
  | some n =>
    obtain ⟨ms, rfl, hwritable, hdepth⟩ := h.isObj
    refine ⟨_, rfl, ms, hwritable, hdepth, ?_, fun heq => ?_⟩
    · exact (List.take_prefix n _).trans (List.dropLast_prefix _)
    · have hne : toStringPretty doubles (.obj ms) ≠ [] := by
        obtain ⟨body, hbody⟩ := Json.write_obj (Json.pretty (fun _ => false) doubles) 0 ms
        exact Json.toBytes_ne_nil (by simp [hbody])
      have hlen := congrArg List.length heq
      have hpos := List.length_pos_iff.2 hne
      simp only [fsWrite, List.length_take, List.length_dropLast] at hlen
      omega

/-- What is known of `meta.json` after an event is what the event makes of it. -/
theorem Event.run_of {doubles : Json.Doubles} {file : Option Bytes} {m : Described}
    (h : m.Of doubles file) {e : Event} (he : e.Ok) :
  (m.run doubles.reread e).Of doubles (e.run doubles file)
  := by
  cases e with
  | finalize mode d killed =>
    have hd := VersionedMeta.Ok.heldBy he
    cases d with
    | v4 p => exact hd.write doubles killed
    | v5 p =>
      cases mode with
      | directWrite => exact hd.write doubles killed
      | rename =>
        cases killed with
        | none => exact hd.write doubles none
        | some n => exact h
  | patch encoding killed =>
    cases m with
    | nothing =>
      cases (show file = none from h)
      rfl
    | torn =>
      obtain ⟨bytes, hfile, hcut⟩ := h
      cases hfile
      simp only [Event.run, Option.bind_some, hcut.patch encoding]
      exact ⟨bytes, rfl, hcut⟩
    | complete d =>
      obtain ⟨doc, hd, rfl⟩ := h
      obtain ⟨doc', hpatch, hd'⟩ := hd.patch doubles he
      simp only [Event.run, Option.bind_some, hpatch]
      exact hd'.write doubles killed

/-- Through all events, the file contains what is described. -/
theorem run_of {doubles : Json.Doubles} {file : Option Bytes} {m : Described}
    (h : m.Of doubles file) {events : List Event} (hevents : ∀ e ∈ events, e.Ok) :
  (events.foldl (Described.run doubles.reread) m).Of doubles (events.foldl (Event.run doubles) file)
  := by
  induction events generalizing file m with
  | nil => exact h
  | cons e es ih =>
    exact ih (Event.run_of h (hevents e List.mem_cons_self)) fun e' he' =>
      hevents e' (List.mem_cons_of_mem e he')

/-- A load succeeds exactly on a file that was written completely, with what was written. -/
theorem Described.Of.load {doubles : Json.Doubles} {file : Option Bytes} {m : Described}
    (h : m.Of doubles file) (v : VersionedMeta) :
  load doubles file = .ok v ↔ ∃ d, m = .complete d ∧ v = d.reread doubles.reread
  := by
  cases m with
  | nothing =>
    cases (show file = none from h)
    simp [Desc.load]
  | torn =>
    obtain ⟨bytes, hfile, hcut⟩ := h
    cases hfile
    simp [hcut.load v]
  | complete d =>
    obtain ⟨doc, hd, rfl⟩ := h
    rw [hd.load doubles]
    constructor
    · intro heq
      cases heq
      exact ⟨d, rfl, rfl⟩
    · rintro ⟨d', hd', rfl⟩
      cases hd'
      rfl

/-- Wherever the builds and patches of `meta.json` are killed, it loads exactly if the last
write was not cut off, and then it loads as what was described. -/
theorem load_run (doubles : Json.Doubles) {events : List Event} (hevents : ∀ e ∈ events, e.Ok)
    (v : VersionedMeta) :
  load doubles (events.foldl (Event.run doubles) none) = .ok v
    ↔ ∃ d, events.foldl (Described.run doubles.reread) .nothing = .complete d
      ∧ v = d.reread doubles.reread
  :=
  (run_of (show Described.nothing.Of doubles none from rfl) hevents).load v

def sampleEncoding : Json := descriptorJson (fun _ => "AQI=") [1, 2] "kv.User"

/-- A patch that is killed, a build that is killed before the rename, and another try. -/
def sampleEvents : List Event :=
  [.finalize .rename sampleMeta none, .patch sampleEncoding (some 3),
    .finalize .rename sampleMeta (some 5), .finalize .directWrite sampleMeta none,
    .patch sampleEncoding none]

theorem sampleEvents_ok :
  ∀ e ∈ sampleEvents, e.Ok
  := by
  have hencoding : IsValue 127 sampleEncoding := isValue_descriptorJson _ _ _
  intro e he
  simp only [sampleEvents, List.mem_cons, List.not_mem_nil, or_false] at he
  obtain rfl | rfl | rfl | rfl | rfl := he
  · exact sampleMeta_ok
  · exact hencoding
  · exact sampleMeta_ok
  · exact sampleMeta_ok
  · exact hencoding

theorem load_run_killed :
  load Json.halfDoubles (sampleEvents.foldl (Event.run Json.halfDoubles) none)
    = .ok (((sampleMeta.reread Json.halfDoubles.reread).setEncoding sampleEncoding).reread
      Json.halfDoubles.reread)
  :=
  (load_run Json.halfDoubles sampleEvents_ok _).2 ⟨_, rfl, rfl⟩

end Format.Desc
