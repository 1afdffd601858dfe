import Mathlib.Data.List.Basic
import Mathlib.Algebra.Order.Ring.Nat
import Mathlib.Tactic.Ring

/-!
# Byte strings

Byte strings are lists of bytes.  `leBytes k n` is the little-endian encoding of `n` in
`k` bytes, `leNat` its inverse, and `slice b i j` the bytes of `b` at positions `i` to
`j - 1`.
-/

/-- A byte string. -/
abbrev Bytes := List UInt8

namespace Bytes

/-- The `k` low bytes of `n`, least significant first. -/
def leBytes : Nat → Nat → Bytes
  | 0, _ => []
  | k + 1, n => UInt8.ofNat n :: leBytes k (n / 256)

/-- The number a byte string encodes, least significant byte first. -/
def leNat : Bytes → Nat
  | [] => 0
  | b :: bs => b.toNat + 256 * leNat bs

/-- The bytes of `b` at positions `i` to `j - 1`. -/
def slice (b : Bytes) (i j : Nat) : Bytes :=
  (b.drop i).take (j - i)

@[simp]
theorem length_leBytes (k n : Nat) :
  (leBytes k n).length = k
  := by
  induction k generalizing n with
  | zero => rfl
  | succ k ih => simp [leBytes, ih]

/-- Decoding the encoding of `n` in `k` bytes gives `n` modulo `256 ^ k`. -/
theorem leNat_leBytes (k n : Nat) :
  leNat (leBytes k n) = n % 256 ^ k
  := by
  induction k generalizing n with
  | zero => simp [leBytes, leNat, Nat.mod_one]
  | succ k ih =>
    have hbyte : (UInt8.ofNat n).toNat = n % 256 := by simp
    simp only [leBytes, leNat, ih, hbyte]
    rw [Nat.pow_succ, Nat.mul_comm (256 ^ k) 256, Nat.mod_mul]

theorem leNat_leBytes_of_lt {k n : Nat} (h : n < 256 ^ k) :
  leNat (leBytes k n) = n
  := by
  rw [leNat_leBytes, Nat.mod_eq_of_lt h]

/-- Encoding what a byte string encodes gives it back. -/
theorem leBytes_leNat (b : Bytes) :
  leBytes b.length (leNat b) = b
  := by
  induction b with
  | nil => rfl
  | cons x b ih =>
    have hx := x.toNat_lt
    have hlow : UInt8.ofNat (x.toNat + 256 * leNat b) = x := by
      apply UInt8.toNat_inj.mp
      rw [UInt8.toNat_ofNat']
      omega
    have hhigh : (x.toNat + 256 * leNat b) / 256 = leNat b := by omega
    rw [List.length_cons, leNat, leBytes, hlow, hhigh, ih]

theorem leNat_lt (b : Bytes) :
  leNat b < 256 ^ b.length
  := by
  induction b with
  | nil => simp [leNat]
  | cons x b ih =>
    have hx := x.toNat_lt
    rw [leNat, List.length_cons, Nat.pow_succ]
    omega

/-- A zero in front of a byte string is a digit of no weight. -/
theorem leNat_replicate_zero (k : Nat) :
  leNat (List.replicate k 0) = 0
  := by
  induction k with
  | zero => rfl
  | succ k ih => simp [List.replicate_succ, leNat, ih]

/-- Slicing from a prefix on: the first `i` bytes are skipped. -/
theorem slice_append_right {a b : Bytes} {i j : Nat} (hi : a.length ≤ i) :
  slice (a ++ b) i j = slice b (i - a.length) (j - a.length)
  := by
  simp only [slice, List.drop_append, List.drop_eq_nil_of_le hi, List.nil_append]
  congr 1
  omega

/-- A slice that lies in the first part of a concatenation. -/
theorem slice_append_left {a b : Bytes} {i j : Nat} (hj : j ≤ a.length) :
  slice (a ++ b) i j = slice a i j
  := by
  by_cases hi : i ≤ a.length
  · rw [slice, List.drop_append_of_le_length hi, slice, List.take_append_of_le_length]
    simp only [List.length_drop]
    omega
  · have h : j - i = 0 := by omega
    simp [slice, h]

theorem slice_zero (b : Bytes) (j : Nat) :
  slice b 0 j = b.take j
  := by
  simp [slice]

/-- The slice that covers exactly the middle part of a concatenation. -/
theorem slice_mid (a b c : Bytes) {i j : Nat} (hi : i = a.length)
    (hj : j = a.length + b.length) :
  slice (a ++ (b ++ c)) i j = b
  := by
  subst hi hj
  rw [slice, List.drop_left, Nat.add_sub_cancel_left, List.take_left]

/-- A concatenation of byte strings of one length. -/
theorem length_flatten_of_length {bs : List Bytes} {k : Nat} (h : ∀ b ∈ bs, b.length = k) :
  bs.flatten.length = bs.length * k
  := by
  induction bs with
  | nil => simp
  | cons b bs ih =>
    rw [List.flatten_cons, List.length_append, h b List.mem_cons_self,
      ih (fun c hc => h c (List.mem_cons_of_mem _ hc)), List.length_cons, Nat.succ_mul]
    omega

/-- The `i`-th part of a concatenation of byte strings of one length. -/
theorem slice_flatten_of_length {bs : List Bytes} {k i : Nat} {b : Bytes}
    (h : ∀ b ∈ bs, b.length = k) (hb : bs[i]? = some b) :
  slice bs.flatten (i * k) (i * k + k) = b
  := by
  induction bs generalizing i with
  | nil => simp at hb
  | cons c bs ih =>
    have hc : c.length = k := h c List.mem_cons_self
    cases i with
    | zero =>
      obtain rfl : c = b := by simpa using hb
      rw [Nat.zero_mul, Nat.zero_add, slice_zero, List.flatten_cons, List.take_left' hc]
    | succ i =>
      have htail := ih (fun c hc => h c (List.mem_cons_of_mem _ hc)) (by simpa using hb)
      rw [List.flatten_cons, slice_append_right (by rw [Nat.succ_mul]; omega), hc,
        Nat.succ_mul, Nat.add_sub_cancel]
      rw [show i * k + k + k - k = i * k + k by omega]
      apply htail

end Bytes
