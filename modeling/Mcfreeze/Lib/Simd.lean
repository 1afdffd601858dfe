import Mathlib.Data.Fin.VecNotation

/-!
# Vector registers

Registers as functions from lanes to 32-bit words, and the instructions on them with their
architectural meaning.  A load reads consecutive words of memory; a load that leaves the
memory has no result.

A comparison makes every lane all ones or zero.  `movemaskEpi8` collects the top bits of the
32 bytes of a register, four for each lane, so that a comparison of a lane is read off any of
its four bits.
-/

namespace Simd

/-- A register with `k` lanes of 32 bits. -/
abbrev Lanes (k : Nat) := Fin k → UInt32

def allOnes : UInt32 := 0xffffffff

section

variable {k : Nat} {mem : List UInt32}

/-- Load `k` consecutive words. -/
def load (k : Nat) (mem : List UInt32) (start : Nat) : Option (Lanes k) :=
  if h : start + k ≤ mem.length then some fun i => mem[start + i.val] else none

/-- The same word in every lane. -/
def broadcast (x : UInt32) : Lanes k :=
  fun _ => x

/-- Compare lane by lane. -/
def compareEq (a b : Lanes k) : Lanes k :=
  fun i => if a i = b i then allOnes else 0

/-- A load in range shows the words of memory. -/
theorem exists_load {start : Nat} (h : start + k ≤ mem.length) :
  ∃ v, load k mem start = some v ∧ ∀ i : Fin k, mem[start + i.val]? = some (v i)
  := by
  refine ⟨_, dif_pos h, ?_⟩
  intro i
  apply List.getElem?_eq_getElem

theorem compareEq_ne_zero {a b : Lanes k} {i : Fin k} :
  compareEq a b i ≠ 0 ↔ a i = b i
  := by
  rw [compareEq]
  split
  · next h => simp [h, allOnes]
  · next h => simp [h]

end

/-! ### AVX2 -/

/-- `_mm256_permutevar8x32_epi32`: every lane picks a lane by three bits of its index. -/
def permutevar8x32 (a idx : Lanes 8) : Lanes 8 :=
  fun i => a ⟨(idx i).toNat % 8, Nat.mod_lt _ (by decide)⟩

/-- Half of a register, chosen by two bits among the halves of two registers, or zeros. -/
def selectHalf (a b : Lanes 8) (control : Nat) : Lanes 4 :=
  fun i =>
    if control.testBit 3 then 0
    else
      match control % 4 with
      | 0 => a ⟨i.val, by omega⟩
      | 1 => a ⟨i.val + 4, by omega⟩
      | 2 => b ⟨i.val, by omega⟩
      | _ => b ⟨i.val + 4, by omega⟩

/-- `_mm256_permute2x128_si256`: the low half by the low four bits of the control, the high
half by the high four bits. -/
def permute2x128 (a b : Lanes 8) (control : Nat) : Lanes 8 :=
  fun i =>
    if h : i.val < 4 then selectHalf a b (control % 16) ⟨i.val, h⟩
    else selectHalf a b (control / 16 % 16) ⟨i.val - 4, by omega⟩

/-- `_mm256_movemask_epi8`: the top bits of the bytes. -/
def movemaskEpi8 (a : Lanes 8) : Nat :=
  Nat.ofBits fun j : Fin 32 => (a ⟨j.val / 4, by omega⟩).toNat.testBit (8 * (j.val % 4) + 7)

theorem testBit_movemaskEpi8 (a : Lanes 8) {j : Nat} (hj : j < 32) :
  (movemaskEpi8 a).testBit j = (a ⟨j / 4, by omega⟩).toNat.testBit (8 * (j % 4) + 7)
  := by
  rw [movemaskEpi8, Nat.testBit_ofBits_lt _ _ hj]

theorem testBit_laneBits (lane j : Nat) :
  (0xf <<< (lane * 4)).testBit j = decide (lane * 4 ≤ j ∧ j < lane * 4 + 4)
  := by
  have hmask : ∀ i, (0xf).testBit i = decide (i < 4) := fun i => Nat.testBit_two_pow_sub_one 4 i
  rw [Nat.testBit_shiftLeft, hmask, Bool.eq_iff_iff, Bool.and_eq_true, decide_eq_true_eq,
    decide_eq_true_eq, decide_eq_true_eq]
  omega

/-- The four bits of a lane tell whether the lanes are equal. -/
theorem movemask_compareEq {a b : Lanes 8} (lane : Fin 8) :
  movemaskEpi8 (compareEq a b) &&& (0xf <<< (lane.val * 4)) ≠ 0 ↔ a lane = b lane
  := by
  constructor
  · intro h
    obtain ⟨j, hj⟩ := Nat.exists_testBit_of_ne_zero h
    rw [Nat.testBit_and, testBit_laneBits, Bool.and_eq_true, decide_eq_true_eq] at hj
    obtain ⟨hbit, hlow, hhigh⟩ := hj
    have hlane : j / 4 = lane.val := by omega
    rw [testBit_movemaskEpi8 _ (by omega)] at hbit
    by_contra hne
    have hzero : compareEq a b lane = 0 := if_neg hne
    simp [hlane, hzero] at hbit
  · intro heq h
    have hone : compareEq a b lane = allOnes := if_pos heq
    have hbit : (movemaskEpi8 (compareEq a b) &&& (0xf <<< (lane.val * 4))).testBit (lane.val * 4)
        = true := by
      have hdiv : lane.val * 4 / 4 = lane.val := by omega
      have hbyte : allOnes.toNat.testBit (8 * 0 + 7) = true := by decide
      rw [Nat.testBit_and, testBit_laneBits, testBit_movemaskEpi8 _ (by omega)]
      simp only [hdiv, Nat.mul_mod_left, hone, hbyte, Bool.true_and, decide_eq_true_eq]
      omega
    rw [h] at hbit
    simp at hbit

/-! ### NEON -/

/-- `vld2q_u32`: load eight words and take the even and the odd ones apart. -/
def vld2q (mem : List UInt32) (start : Nat) : Option (Lanes 4 × Lanes 4) := do
  let words ← load 8 mem start
  return (fun i => words ⟨2 * i.val, by omega⟩, fun i => words ⟨2 * i.val + 1, by omega⟩)

/-- One lane of a register. -/
def getLane (v : Lanes 4) (i : Nat) : Option UInt32 :=
  if h : i < 4 then some (v ⟨i, h⟩) else none

end Simd
