import Mcfreeze.V4.Index
import Mcfreeze.Lib.Simd
import Mathlib.Data.Fintype.Basic
import Mathlib.Tactic.FinCases

/-!
# The vector probes of the V4 index

`probe_group` (`v4/index.rs`) looks at eight buckets at once where the processor can: with
AVX2, two loads whose fingerprints are brought together by permutations, and with NEON two
loads that take fingerprints and offsets apart.  Groups that wrap around are probed bucket by
bucket.

On every platform the result is that of the probe bucket by bucket.
-/

namespace V4

open Simd

/-! ### The probes -/

/-- The table in memory: a bucket is its fingerprint and its offset. -/
def tableWords (table : List Bucket) : List UInt32 :=
  table.flatMap fun b => [b.fingerprint, b.offset]

/-- Go over the lanes up to an empty one.  A lane that matches takes the offset of its bucket,
which the table is indexed for. -/
def probeLanes (empty hit : Nat → Option Bool) (offset : Nat → Option UInt32) :
    Nat → Nat → Option (List UInt32 × Bool)
  | _, 0 => some ([], false)
  | lane, m + 1 => do
    if ← empty lane then return (List.replicate (m + 1) noMatch, true)
    else
      let off ← if ← hit lane then offset lane else some noMatch
      let rest ← probeLanes empty hit offset (lane + 1) m
      return (off :: rest.1, rest.2)

/-- Probe bucket by bucket; the position is taken modulo the length of the table. -/
def probeGroupScalar (table : List Bucket) (cfp : UInt32) (start : Nat) :
    Option (List UInt32 × Bool) :=
  if table.length = 0 then none else some (probeGroup table cfp start)

def shuf : Lanes 8 := ![0, 2, 4, 6, 0, 2, 4, 6]

/-- Whether the mask has a bit of the lane. -/
def laneSet (mask lane : Nat) : Bool :=
  mask &&& (0xf <<< (lane * 4)) != 0

/-- Probe eight buckets with AVX2. -/
def probeGroupAvx2 (table : List Bucket) (cfp : UInt32) (pos : Nat) :
    Option (List UInt32 × Bool) := do
  let lo ← load 8 (tableWords table) (2 * pos)
  let hi ← load 8 (tableWords table) (2 * pos + 8)
  let fps := permute2x128 (permutevar8x32 lo shuf) (permutevar8x32 hi shuf) 0x20
  let matchMask := movemaskEpi8 (compareEq fps (broadcast cfp))
  let emptyMask := movemaskEpi8 (compareEq fps (broadcast 0))
  probeLanes (fun lane => some (laneSet emptyMask lane)) (fun lane => some (laneSet matchMask lane))
    (fun lane => table[pos + lane]?.map Bucket.offset) 0 groupSize

/-- Probe four buckets with NEON. -/
def probeHalfNeon (table : List Bucket) (cfp : UInt32) (pos : Nat) :
    Option (List UInt32 × Bool) := do
  let pair ← vld2q (tableWords table) (2 * pos)
  let hits := compareEq pair.1 (broadcast cfp)
  let empties := compareEq pair.1 (broadcast 0)
  probeLanes (fun i => (getLane empties i).map (· != 0)) (fun i => (getLane hits i).map (· != 0))
    (fun i => table[pos + i]?.map Bucket.offset) 0 4

/-- Probe eight buckets with NEON: the second four only if there was no empty bucket among the
first. -/
def probeGroupNeon (table : List Bucket) (cfp : UInt32) (pos : Nat) :
    Option (List UInt32 × Bool) := do
  let first ← probeHalfNeon table cfp pos
  if first.2 then return (first.1 ++ List.replicate 4 noMatch, true)
  else
    let second ← probeHalfNeon table cfp (pos + 4)
    return (first.1 ++ second.1, second.2)

/-- What the program runs on. -/
inductive Platform where
  | x86_64 (avx2 : Bool)
  | aarch64
  | other
  deriving DecidableEq, Repr

/-- Probe one group on a platform. -/
def probeGroupOn (platform : Platform) (table : List Bucket) (cfp : UInt32) (pos : Nat) :
    Option (List UInt32 × Bool) :=
  match platform with
  | .x86_64 avx2 =>
    if pos + groupSize ≤ table.length ∧ avx2 = true then probeGroupAvx2 table cfp pos
    else probeGroupScalar table cfp pos
  | .aarch64 =>
    if pos + groupSize ≤ table.length then probeGroupNeon table cfp pos
    else probeGroupScalar table cfp pos
  | .other => probeGroupScalar table cfp pos

/-! ### The lanes -/

section

variable {table : List Bucket} {cfp : UInt32} {pos : Nat}

theorem length_tableWords (table : List Bucket) :
  (tableWords table).length = 2 * table.length
  := by
  induction table with
  | nil => rfl
  | cons b table ih =>
    simp only [tableWords, List.flatMap_cons, List.length_append] at ih ⊢
    simp only [ih, List.length_cons, List.length_nil]
    omega

/-- A bucket is two words. -/
theorem getElem?_tableWords {p : Nat} {b : Bucket} (h : table[p]? = some b) :
  (tableWords table)[2 * p]? = some b.fingerprint ∧ (tableWords table)[2 * p + 1]? = some b.offset
  := by
  induction table generalizing p with
  | nil => simp at h
  | cons b' table ih =>
    cases p with
    | zero =>
      obtain rfl : b' = b := by simpa using h
      exact ⟨rfl, rfl⟩
    | succ p =>
      rw [List.getElem?_cons_succ] at h
      apply ih h

/-- Going over lanes that show the buckets is probing the buckets. -/
theorem probeLanes_eq {empty hit : Nat → Option Bool} (lane : Nat) {m : Nat}
    (hlen : pos + lane + m ≤ table.length)
    (hlanes : ∀ i, lane ≤ i → i < lane + m → ∀ b, table[pos + i]? = some b →
      empty i = some b.isEmpty ∧ hit i = some (decide (b.fingerprint = cfp))) :
  probeLanes empty hit (fun i => table[pos + i]?.map Bucket.offset) lane m
    = some (probeFrom table cfp (pos + lane) m)
  := by
  induction m generalizing lane with
  | zero => rfl
  | succ m ih =>
    obtain ⟨b, hb⟩ : ∃ b, table[pos + lane]? = some b :=
      ⟨_, List.getElem?_eq_getElem (by omega)⟩
    obtain ⟨hempty, hhit⟩ := hlanes lane (Nat.le_refl lane) (by omega) b hb
    have hrest := ih (lane + 1) (by omega) fun i hi hlt => hlanes i (by omega) (by omega)
    have hmod : (pos + lane) % table.length = pos + lane := Nat.mod_eq_of_lt (by omega)
    rw [probeLanes, probeFrom, hmod, hb, hempty]
    by_cases he : b.isEmpty = true
    · simp [he]
    · by_cases hfp : b.fingerprint = cfp
      · simp [he, hhit, hfp, hrest, Nat.add_assoc]
      · simp [he, hhit, hfp, hrest, Nat.add_assoc]

/-- Probing in two parts. -/
theorem probeFrom_add (start k m : Nat) :
  probeFrom table cfp start (k + m)
    = if (probeFrom table cfp start k).2 then
        ((probeFrom table cfp start k).1 ++ List.replicate m noMatch, true)
      else
        ((probeFrom table cfp start k).1 ++ (probeFrom table cfp (start + k) m).1,
          (probeFrom table cfp (start + k) m).2)
  := by
  induction k generalizing start with
  | zero => simp [probeFrom]
  | succ k ih =>
    have hcomm : k + 1 + m = (k + m) + 1 := by omega
    rw [hcomm, probeFrom, probeFrom]
    cases hget : table[start % table.length]? with
    | none => simp [Nat.add_right_comm]
    | some b =>
      by_cases he : b.isEmpty = true
      · simp [he, Nat.add_right_comm]
      · have hstart : start + 1 + k = start + (k + 1) := by omega
        simp only [he, ih, hstart]
        by_cases hdone : (probeFrom table cfp (start + 1) k).2 = true
        · simp [hdone]
        · simp [hdone]

/-- The permutations bring the words at even places together. -/
theorem permuted (lo hi : Lanes 8) (i : Fin 8) :
  permute2x128 (permutevar8x32 lo shuf) (permutevar8x32 hi shuf) 0x20 i
    = if h : i.val < 4 then lo ⟨2 * i.val, by omega⟩ else hi ⟨2 * (i.val - 4), by omega⟩
  := by
  fin_cases i <;> rfl

/-- The lane of a bucket shows its fingerprint. -/
theorem fingerprint_of_lane {lo hi : Lanes 8}
    (hlo : ∀ i : Fin 8, (tableWords table)[2 * pos + i.val]? = some (lo i))
    (hhi : ∀ i : Fin 8, (tableWords table)[2 * pos + 8 + i.val]? = some (hi i)) {b : Bucket}
    (i : Fin 8) (hb : table[pos + i.val]? = some b) :
  permute2x128 (permutevar8x32 lo shuf) (permutevar8x32 hi shuf) 0x20 i = b.fingerprint
  := by
  obtain ⟨hword, -⟩ := getElem?_tableWords hb
  rw [permuted]
  split
  · next h =>
    have hl := hlo ⟨2 * i.val, by omega⟩
    dsimp only at hl
    rw [← Nat.mul_add, hword] at hl
    exact (Option.some.inj hl).symm
  · next h =>
    have hh := hhi ⟨2 * (i.val - 4), by omega⟩
    have hplace : 2 * pos + 8 + 2 * (i.val - 4) = 2 * (pos + i.val) := by omega
    dsimp only at hh
    rw [hplace, hword] at hh
    exact (Option.some.inj hh).symm

theorem laneSet_compareEq {fps : Lanes 8} {x : UInt32} (i : Fin 8) :
  laneSet (movemaskEpi8 (compareEq fps (broadcast x))) i.val = decide (fps i = x)
  := by
  rw [laneSet, Bool.eq_iff_iff, bne_iff_ne, movemask_compareEq, decide_eq_true_eq, broadcast]

theorem isEmpty_eq_decide (b : Bucket) :
  b.isEmpty = decide (b.fingerprint = 0)
  := by
  rw [Bucket.isEmpty, Bool.eq_iff_iff, beq_iff_eq, decide_eq_true_eq]

/-- The vector comparison finds what the comparison of one bucket after the other does. -/
theorem probeGroupAvx2_eq (h : pos + groupSize ≤ table.length) (cfp : UInt32) :
  probeGroupAvx2 table cfp pos = some (probeGroup table cfp pos)
  := by
  have hlen := length_tableWords table
  simp only [groupSize] at h
  obtain ⟨lo, hlo, hloWords⟩ : ∃ v, load 8 (tableWords table) (2 * pos) = some v ∧ _ :=
    exists_load (by omega)
  obtain ⟨hi, hhi, hhiWords⟩ : ∃ v, load 8 (tableWords table) (2 * pos + 8) = some v ∧ _ :=
    exists_load (by omega)
  simp only [probeGroupAvx2, hlo, hhi, Option.bind_eq_bind, Option.bind_some]
  apply probeLanes_eq 0 (by simp only [groupSize]; omega)
  intro i _ hi b hb
  simp only [groupSize] at hi
  have hfp := fingerprint_of_lane hloWords hhiWords ⟨i, by omega⟩ hb
  constructor
  · rw [laneSet_compareEq ⟨i, by omega⟩, hfp, isEmpty_eq_decide]
  · rw [laneSet_compareEq ⟨i, by omega⟩, hfp]

theorem getLane_compareEq {v : Lanes 4} {x : UInt32} {i : Nat} (h : i < 4) :
  (getLane (compareEq v (broadcast x)) i).map (· != 0) = some (decide (v ⟨i, h⟩ = x))
  := by
  rw [getLane, dif_pos h, Option.map_some, Option.some.injEq, Bool.eq_iff_iff, bne_iff_ne,
    compareEq_ne_zero, decide_eq_true_eq, broadcast]

/-- The vector comparison of half a group finds what the comparison of one bucket after the
other does. -/
theorem probeHalfNeon_eq (h : pos + 4 ≤ table.length) (cfp : UInt32) :
  probeHalfNeon table cfp pos = some (probeFrom table cfp pos 4)
  := by
  have hlen := length_tableWords table
  obtain ⟨v, hv, hwords⟩ : ∃ v, load 8 (tableWords table) (2 * pos) = some v ∧ _ :=
    exists_load (by omega)
  simp only [probeHalfNeon, vld2q, hv, Option.bind_eq_bind, Option.bind_some, Option.pure_def]
  apply probeLanes_eq 0 (by omega)
  intro i _ hi b hb
  obtain ⟨hword, -⟩ := getElem?_tableWords hb
  have hlane : v ⟨2 * i, by omega⟩ = b.fingerprint := by
    have hw := hwords ⟨2 * i, by omega⟩
    dsimp only at hw
    rw [← Nat.mul_add, hword] at hw
    exact (Option.some.inj hw).symm
  constructor
  · rw [getLane_compareEq (by omega), isEmpty_eq_decide]
    simp only [hlane]
  · rw [getLane_compareEq (by omega)]
    simp only [hlane]

/-- Two halves that are compared find what the comparison of the group does. -/
theorem probeGroupNeon_eq (h : pos + groupSize ≤ table.length) (cfp : UInt32) :
  probeGroupNeon table cfp pos = some (probeGroup table cfp pos)
  := by
  simp only [groupSize] at h
  have hsplit : probeGroup table cfp pos = probeFrom table cfp pos (4 + 4) := rfl
  simp only [probeGroupNeon, probeHalfNeon_eq (show pos + 4 ≤ table.length by omega),
    probeHalfNeon_eq (show pos + 4 + 4 ≤ table.length by omega), Option.bind_eq_bind,
    Option.bind_some, Option.pure_def]
  rw [hsplit, probeFrom_add]
  split
  · rfl
  · rfl

/-- The vector probes of a group that does not wrap around give what the probe bucket by
bucket gives, and so does the probe of every group on every platform. -/
theorem probes_agree (table : List Bucket) (cfp : UInt32) :
  (∀ pos, pos + groupSize ≤ table.length →
      probeGroupAvx2 table cfp pos = probeGroupScalar table cfp pos
        ∧ probeGroupNeon table cfp pos = probeGroupScalar table cfp pos)
    ∧ ∀ platform pos, probeGroupOn platform table cfp pos = probeGroupScalar table cfp pos
  := by
  have hvector : ∀ pos, pos + groupSize ≤ table.length →
      probeGroupAvx2 table cfp pos = probeGroupScalar table cfp pos
        ∧ probeGroupNeon table cfp pos = probeGroupScalar table cfp pos := by
    intro pos h
    have hne : table.length ≠ 0 := by
      simp only [groupSize] at h
      omega
    rw [probeGroupAvx2_eq h, probeGroupNeon_eq h, probeGroupScalar, if_neg hne]
    exact ⟨rfl, rfl⟩
  refine ⟨hvector, ?_⟩
  intro platform pos
  cases platform with
  | x86_64 avx2 =>
    rw [probeGroupOn]
    split
    · next h => apply (hvector pos h.1).1
    · rfl
  | aarch64 =>
    rw [probeGroupOn]
    split
    · next h => apply (hvector pos h).2
    · rfl
  | other => rfl

end

end V4
