import Mathlib.Algebra.Order.Ring.Nat
import Mathlib.Data.List.Sort
import Mathlib.Order.Monotone.Defs

/-!
# Histograms

The elements of a list are counted by class.  When the classes are monotone in the element,
the class of the median can be read off the counts: it is the first class up to which at
least half of the elements are counted.
-/

namespace Histogram

section

variable {α : Type}

/-- How many elements of the list are in each of the classes `0` to `n - 1`. -/
def tally (n : Nat) (c : α → Nat) (l : List α) : List Nat :=
  (List.range n).map fun b => l.countP fun a => c a = b

variable {n : Nat} {c : α → Nat} {l : List α}

theorem length_tally :
  (tally n c l).length = n
  := by
  rw [tally, List.length_map, List.length_range]

theorem getElem?_tally {b : Nat} (hb : b < n) :
  (tally n c l)[b]? = some (l.countP fun a => c a = b)
  := by
  rw [tally, List.getElem?_map, List.getElem?_range hb, Option.map_some]

theorem tally_nil :
  tally n c [] = List.replicate n 0
  := by
  simp [tally]

/-- Counting one more element. -/
theorem modify_tally (a : α) :
  (tally n c l).modify (c a) (· + 1) = tally n c (l ++ [a])
  := by
  apply List.ext_getElem?
  intro b
  rw [List.getElem?_modify]
  rcases Nat.lt_or_ge b n with hb | hb
  · rw [getElem?_tally hb, getElem?_tally hb, List.countP_append, List.countP_singleton]
    simp only [decide_eq_true_eq]
    split <;> rfl
  · rw [List.getElem?_eq_none (by rwa [length_tally]), List.getElem?_eq_none (by rwa [length_tally])]
    rfl

/-- Counting two lists is counting them together. -/
theorem zipWith_tally (m : List α) :
  List.zipWith (· + ·) (tally n c l) (tally n c m) = tally n c (l ++ m)
  := by
  rw [tally, tally, List.zipWith_map, List.zipWith_self, tally]
  apply List.map_congr_left
  intro b _
  rw [List.countP_append]

theorem countP_lt_succ (b : Nat) :
  (l.countP fun a => c a < b + 1) = (l.countP fun a => c a < b) + l.countP fun a => c a = b
  := by
  induction l with
  | nil => rfl
  | cons a l ih =>
    simp only [List.countP_cons, ih, decide_eq_true_eq]
    split <;> split <;> split <;> omega

/-- The counts of the first classes add up to the number of elements in them. -/
theorem sum_take_tally {b : Nat} (hb : b ≤ n) :
  ((tally n c l).take b).sum = l.countP fun a => c a < b
  := by
  induction b with
  | zero => simp
  | succ b ih =>
    have hget : (tally n c l)[b]? = some (l.countP fun a => c a = b) := getElem?_tally hb
    rw [List.take_add_one, hget, List.sum_append, ih (Nat.le_of_lt hb), countP_lt_succ]
    simp

/-- When every element is in one of the classes, all of them are counted. -/
theorem sum_tally (h : ∀ a ∈ l, c a < n) :
  (tally n c l).sum = l.length
  := by
  have hsum : ((tally n c l).take n).sum = l.countP fun a => c a < n := sum_take_tally (Nat.le_refl n)
  rw [List.take_of_length_le (by rw [length_tally])] at hsum
  rw [hsum, List.countP_eq_length]
  intro a ha
  apply decide_eq_true (h a ha)

end

/-! ### The median -/

section

variable {α : Type} [LinearOrder α]

/-- The middle one of the elements in order; the lower one, when two are in the middle. -/
def lowerMedian (l : List α) : Option α :=
  (l.insertionSort (· ≤ ·))[(l.length - 1) / 2]?

variable {n : Nat} {c : α → Nat} {l : List α} {m : α}

theorem exists_lowerMedian (h : l ≠ []) :
  ∃ m, lowerMedian l = some m
  := by
  have hpos := List.length_pos_iff.mpr h
  refine ⟨_, List.getElem?_eq_getElem ?_⟩
  rw [List.length_insertionSort]
  omega

/-- The elements below the median and those above it. -/
theorem split_of_lowerMedian (h : lowerMedian l = some m) :
  ∃ lower upper, (lower ++ m :: upper).Perm l ∧ lower.length + 1 = (l.length + 1) / 2
    ∧ (∀ a ∈ lower, a ≤ m) ∧ ∀ a ∈ upper, m ≤ a
  := by
  obtain ⟨hi, hm⟩ := List.getElem?_eq_some_iff.mp h
  have hsorted := List.pairwise_insertionSort (· ≤ ·) l
  have hperm := List.perm_insertionSort (· ≤ ·) l
  have hlen : (l.insertionSort (· ≤ ·)).length = l.length := hperm.length_eq
  rw [← List.take_append_drop ((l.length - 1) / 2) (l.insertionSort (· ≤ ·)),
    List.drop_eq_getElem_cons hi, hm] at hsorted hperm
  obtain ⟨-, hupper, hlower⟩ := List.pairwise_append.mp hsorted
  refine ⟨_, _, hperm, ?_, ?_, ?_⟩
  · rw [List.length_take]
    omega
  · intro a ha
    apply hlower a ha m List.mem_cons_self
  · apply (List.pairwise_cons.mp hupper).1

theorem mem_of_lowerMedian (h : lowerMedian l = some m) :
  m ∈ l
  := by
  obtain ⟨lower, upper, hperm, -⟩ := split_of_lowerMedian h
  rw [← hperm.mem_iff]
  simp

/-- Fewer than half of the elements are in the classes below that of the median. -/
theorem countP_lt_median (hc : Monotone c) (h : lowerMedian l = some m) :
  (l.countP fun a => c a < c m) < (l.length + 1) / 2
  := by
  obtain ⟨lower, upper, hperm, hhalf, -, hupper⟩ := split_of_lowerMedian h
  have hnone : (m :: upper).countP (fun a => c a < c m) = 0 := by
    rw [List.countP_eq_zero]
    intro a ha
    rcases List.mem_cons.mp ha with rfl | ha
    · simp
    · simpa using hc (hupper a ha)
  have hle : (lower.countP fun a => c a < c m) ≤ lower.length := List.countP_le_length
  rw [← hperm.countP_eq, List.countP_append, hnone]
  omega

/-- At least half of the elements are in the classes up to that of the median. -/
theorem le_countP_le_median (hc : Monotone c) (h : lowerMedian l = some m) :
  (l.length + 1) / 2 ≤ l.countP fun a => c a < c m + 1
  := by
  obtain ⟨lower, upper, hperm, hhalf, hlower, -⟩ := split_of_lowerMedian h
  have hall : (lower.countP fun a => c a < c m + 1) = lower.length := by
    rw [List.countP_eq_length]
    intro a ha
    have hle := hc (hlower a ha)
    apply decide_eq_true
    omega
  rw [← hperm.countP_eq, List.countP_append, hall, List.countP_cons_of_pos (by simp)]
  omega

/-- The class of the median is the first up to which half of the elements are counted. -/
theorem tally_median (hc : Monotone c) (h : lowerMedian l = some m) (hn : c m < n) :
  ((tally n c l).take (c m)).sum < (l.length + 1) / 2
    ∧ (l.length + 1) / 2 ≤ ((tally n c l).take (c m + 1)).sum
  := by
  constructor
  · rw [sum_take_tally (Nat.le_of_lt hn)]
    apply countP_lt_median hc h
  · rw [sum_take_tally hn]
    apply le_countP_le_median hc h

end

end Histogram
