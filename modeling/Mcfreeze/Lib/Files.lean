import Mcfreeze.Lib.Bytes
import Mcfreeze.Lib.Crash

/-!
# File operations

A store that contains files, and the operations of programs on them.  The operations are
the points at which a program can be killed.  A buffered writer hands some of its bytes to
the file whenever it is written to, and the rest when it is flushed.
-/

open Crash

/-- A store with files that have names in `φ`. -/
class FileStore (τ : Type) (φ : outParam Type) where
  file : τ → φ → Option Bytes
  setFile : τ → φ → Option Bytes → τ
  file_setFile : ∀ d f c, file (setFile d f c) f = c
  file_setFile_ne : ∀ d {f g}, g ≠ f → ∀ c, file (setFile d f c) g = file d g
  setFile_setFile : ∀ d f c c', setFile (setFile d f c) f c' = setFile d f c'

attribute [simp] FileStore.file_setFile FileStore.setFile_setFile

/-- The errors of file operations. -/
class IoError (ε : Type) where
  io : String → ε

namespace Files

export FileStore (file setFile file_setFile file_setFile_ne setFile_setFile)

/-- The length that no file can exceed. -/
def maxFileLen : Nat := 2 ^ 63 - 1

section

variable {τ φ ε S : Type} [FileStore τ φ] [IoError ε]

/-- Create an empty file, or truncate it. -/
def create (f : φ) : Prog τ ε S Unit :=
  .modify fun d => setFile d f (some [])

/-- Delete a file. -/
def remove (f : φ) : Prog τ ε S Unit :=
  .modify fun d => setFile d f none

/-- Read a file. -/
def readFile (f : φ) : Prog τ ε S Bytes :=
  .atomic fun d =>
    match file d f with
    | none => .error (IoError.io "No such file or directory")
    | some b => .ok (b, d)

/-- Hand bytes to an open file. -/
def append (f : φ) (bytes : Bytes) : Prog τ ε S Unit :=
  .atomic fun d =>
    match file d f with
    | none => .error (IoError.io "No such file or directory")
    | some b =>
      if maxFileLen < b.length + bytes.length then .error (IoError.io "File too large")
      else .ok ((), setFile d f (some (b ++ bytes)))

/-- Write to a buffered writer; the result is what it still holds back. -/
def bufWrite (f : φ) (pending bytes : Bytes) : Prog τ ε S Bytes := do
  let k ← Prog.pick
  append f ((pending ++ bytes).take k)
  return (pending ++ bytes).drop k

/-- Write a whole file. -/
def writeDataFile (f : φ) (bytes : Bytes) : Prog τ ε S Unit := do
  create f
  let pending ← bufWrite f [] bytes
  append f pending

end

/-! ### What they do -/

section

variable {τ φ ε S : Type} [FileStore τ φ] {P : Phases S τ} {I : τ → Prop} {d : τ} {f : φ}

theorem wp_create {Q : Unit → τ → Prop} (hI : I d) (hI' : I (setFile d f (some [])))
    (hQ : Q () (setFile d f (some []))) :
  wp P I Q (create f : Prog τ ε S Unit) d
  := by
  apply wp_modify hI hI' hQ

theorem wp_remove {Q : Unit → τ → Prop} (hI : I d) (hI' : I (setFile d f none))
    (hQ : Q () (setFile d f none)) :
  wp P I Q (remove f : Prog τ ε S Unit) d
  := by
  apply wp_modify hI hI' hQ

variable [IoError ε]

theorem wp_readFile {Q : Bytes → τ → Prop} (hI : I d) (hQ : ∀ b, file d f = some b → Q b d) :
  wp P I Q (readFile f : Prog τ ε S Bytes) d
  := by
  apply wp_atomic hI
  intro b d' h
  split at h
  · simp at h
  · next b' hb =>
    obtain ⟨rfl, rfl⟩ := Prod.mk.inj (Except.ok.inj h)
    exact ⟨hI, hQ _ hb⟩

/-- An append fails, or puts its bytes behind those of the file. -/
theorem wp_append {Q : Unit → τ → Prop} {bytes : Bytes} (hI : I d)
    (hQ : ∀ b, file d f = some b → b.length + bytes.length ≤ maxFileLen →
      I (setFile d f (some (b ++ bytes))) ∧ Q () (setFile d f (some (b ++ bytes)))) :
  wp P I Q (append f bytes : Prog τ ε S Unit) d
  := by
  apply wp_atomic hI
  intro _ d' h
  split at h
  · simp at h
  · next b hb =>
    split at h
    · simp at h
    · next hlen =>
      obtain ⟨-, rfl⟩ := Prod.mk.inj (Except.ok.inj h)
      apply hQ b hb (Nat.not_lt.mp hlen)

/-- A buffered write may flush any front of what is pending. -/
theorem wp_bufWrite {Q : Bytes → τ → Prop} {pending bytes : Bytes} (hI : I d)
    (hQ : ∀ b flushed rest, file d f = some b → flushed ++ rest = pending ++ bytes →
      I (setFile d f (some (b ++ flushed))) ∧ Q rest (setFile d f (some (b ++ flushed)))) :
  wp P I Q (bufWrite f pending bytes : Prog τ ε S Bytes) d
  := by
  apply wp_bind
  apply wp_pick hI
  intro k
  apply wp_bind
  apply wp_append hI
  intro b hb _
  obtain ⟨hI', hQ'⟩ := hQ b _ _ hb (List.take_append_drop k (pending ++ bytes))
  refine ⟨hI', ?_⟩
  apply wp_pure hI' hQ'

/-- A file may be left with any contents, and has the given ones when the call returns. -/
theorem wp_writeDataFile {Q : Unit → τ → Prop} {bytes : Bytes} (hI : I d)
    (hI' : ∀ b, I (setFile d f (some b))) (hQ : Q () (setFile d f (some bytes))) :
  wp P I Q (writeDataFile f bytes : Prog τ ε S Unit) d
  := by
  apply wp_bind
  apply wp_create hI (hI' _)
  apply wp_bind
  apply wp_bufWrite (hI' _)
  intro b flushed rest hb hflush
  rw [file_setFile] at hb
  obtain rfl := Option.some.inj hb
  rw [List.nil_append, setFile_setFile]
  refine ⟨hI' _, ?_⟩
  apply wp_append (hI' _)
  intro b hb _
  rw [file_setFile] at hb
  obtain rfl := Option.some.inj hb
  rw [setFile_setFile, hflush]
  exact ⟨hI' _, hQ⟩

end

/-! ### Runs without failures -/

section

variable {τ φ ε S : Type} [FileStore τ φ] {d : τ} {f : φ}

theorem ends_create {Q : Unit → τ → Prop} (hQ : Q () (setFile d f (some []))) :
  Ends Q (create f : Prog τ ε S Unit) d
  :=
  hQ

variable [IoError ε]

theorem ends_readFile {Q : Bytes → τ → Prop} {b : Bytes} (hb : file d f = some b) (hQ : Q b d) :
  Ends Q (readFile f : Prog τ ε S Bytes) d
  := by
  apply Ends.atomic _ hQ
  rw [hb]

theorem ends_append {Q : Unit → τ → Prop} {b bytes : Bytes} (hb : file d f = some b)
    (hlen : b.length + bytes.length ≤ maxFileLen) (hQ : Q () (setFile d f (some (b ++ bytes)))) :
  Ends Q (append f bytes : Prog τ ε S Unit) d
  := by
  apply Ends.atomic _ hQ
  rw [hb]
  dsimp only
  rw [if_neg (Nat.not_lt.mpr hlen)]

/-- A buffered write ends when the file does not become too long. -/
theorem ends_bufWrite {Q : Bytes → τ → Prop} {b pending bytes : Bytes} (hb : file d f = some b)
    (hlen : b.length + (pending ++ bytes).length ≤ maxFileLen)
    (hQ : ∀ flushed rest, flushed ++ rest = pending ++ bytes →
      Q rest (setFile d f (some (b ++ flushed)))) :
  Ends Q (bufWrite f pending bytes : Prog τ ε S Bytes) d
  := by
  apply Ends.bind
  intro k
  have htake : ((pending ++ bytes).take k).length ≤ (pending ++ bytes).length := List.length_take_le' _ _
  apply Ends.bind (p := append f ((pending ++ bytes).take k))
  apply ends_append hb (by omega)
  apply hQ _ _ (List.take_append_drop k (pending ++ bytes))

end

/-! ### Their errors -/

section

variable {τ φ ε : Type} [FileStore τ φ] [IoError ε] {X : ε → Prop}

theorem quiet_readFile (hX : ∀ message, X (IoError.io message)) (f : φ) :
  Quiet X (readFile f : Prog τ ε Empty Bytes)
  := by
  apply Quiet.atomic
  intro d e h
  split at h
  · obtain rfl := Except.error.inj h
    apply hX
  · simp at h

/-- An append gives up with no error but that of the file system. -/
theorem quiet_append (hX : ∀ message, X (IoError.io message)) (f : φ) (bytes : Bytes) :
  Quiet X (append f bytes : Prog τ ε Empty Unit)
  := by
  apply Quiet.atomic
  intro d e h
  split at h
  · obtain rfl := Except.error.inj h
    apply hX
  · split at h
    · obtain rfl := Except.error.inj h
      apply hX
    · simp at h

theorem quiet_bufWrite (hX : ∀ message, X (IoError.io message)) (f : φ) (pending bytes : Bytes) :
  Quiet X (bufWrite f pending bytes : Prog τ ε Empty Bytes)
  := by
  apply Quiet.bind Quiet.pick
  intro k
  apply Quiet.bind (quiet_append hX f _)
  intro _
  apply Quiet.pure

theorem quiet_writeDataFile (hX : ∀ message, X (IoError.io message)) (f : φ) (bytes : Bytes) :
  Quiet X (writeDataFile f bytes : Prog τ ε Empty Unit)
  := by
  apply Quiet.bind Quiet.modify
  intro _
  apply Quiet.bind (quiet_bufWrite hX f _ _)
  intro pending
  apply quiet_append hX

end

end Files
