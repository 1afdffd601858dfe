import Mathlib.Order.Lattice
import Mathlib.Data.List.Basic
import Mathlib.Data.List.TakeWhile

/-!
# Fences over a sorted sequence

A sorted sequence is cut into consecutive non-empty blocks, and the *fence* of a block is
the key of its first element.  Keys may repeat, also across a cut, so the fences are
non-decreasing but not strictly increasing.

`candidates fences h` are the blocks that can hold an element with key `h`: those whose
fence is `h`, and the block before the first fence that is not below `h`.
-/

namespace Fences

section

variable {κ : Type} [LinearOrder κ]

/-- The blocks to search for the key `h`, in order. -/
def candidates (fences : List κ) (h : κ) : List Nat :=
  let lo := (fences.takeWhile (· < h)).length
  let eq := ((fences.drop lo).takeWhile (· = h)).length
  let back := if 0 < lo then some (lo - 1) else none
  List.range' lo eq ++ back.toList

end

section

variable {κ α : Type} {key : α → κ} {blocks : List (List α)} {fences : List κ}

/-- Membership in a run at the front of a list, by position. -/
theorem lt_length_takeWhile {p : κ → Bool} {l : List κ} {i : Nat}
    (h : ∀ j x, j ≤ i → l[j]? = some x → p x = true) (hi : i < l.length) :
  i < (l.takeWhile p).length
  := by
  induction l generalizing i with
  | nil => simp at hi
  | cons a l ih =>
    have ha : p a = true := h 0 a (Nat.zero_le _) rfl
    rw [List.takeWhile_cons_of_pos ha, List.length_cons]
    cases i with
    | zero => apply Nat.succ_pos
    | succ i =>
      apply Nat.succ_lt_succ
      apply ih
      · intro j x hj hx
        apply h (j + 1) x (Nat.succ_le_succ hj)
        simpa using hx
      · simpa using hi

theorem of_lt_length_takeWhile {p : κ → Bool} {l : List κ} {i : Nat} {x : κ}
    (hi : i < (l.takeWhile p).length) (hx : l[i]? = some x) :
  p x = true
  := by
  have hget : (l.takeWhile p)[i]? = l[i]? := by
    rw [List.getElem?_eq_getElem hi, (List.takeWhile_prefix p).getElem hi, ← List.getElem?_eq_getElem]
  rw [hx] at hget
  apply List.mem_takeWhile_imp (List.mem_of_getElem? hget)

/-- The fence of each block is the key of its first element. -/
def FencesOf (key : α → κ) (blocks : List (List α)) (fences : List κ) : Prop :=
  List.map (fun b : List α => b.head?.map key) blocks = fences.map some

theorem FencesOf.length_eq (h : FencesOf key blocks fences) :
  fences.length = blocks.length
  := by
  have hlen := congrArg List.length h
  simpa using hlen.symm

/-- The fence of a block is the key of its first element. -/
theorem FencesOf.getElem? (h : FencesOf key blocks fences) {i : Nat} {b : List α}
    (hb : blocks[i]? = some b) :
  ∃ x, b.head? = some x ∧ fences[i]? = some (key x)
  := by
  have hi := congrArg (fun l => l[i]?) h
  simp only [List.getElem?_map, hb, Option.map_some] at hi
  cases hf : fences[i]? with
  | none => simp [hf] at hi
  | some f =>
    simp only [hf, Option.map_some, Option.some.injEq] at hi
    obtain ⟨x, hx, rfl⟩ := Option.map_eq_some_iff.mp hi
    exact ⟨x, hx, rfl⟩

end

section

variable {κ α : Type} [LinearOrder κ] {key : α → κ} {blocks : List (List α)} {fences : List κ}

/-- An element of a block is not below one of an earlier block, nor below the first
element of its own block. -/
theorem key_le_of_sorted (hsorted : blocks.flatten.Pairwise fun x y => key x ≤ key y)
    {i j : Nat} {b c : List α} {x y : α} (hij : i < j) (hb : blocks[i]? = some b)
    (hc : blocks[j]? = some c) (hx : x ∈ b) (hy : y ∈ c) :
  key x ≤ key y
  := by
  rw [List.pairwise_flatten] at hsorted
  obtain ⟨hi, rfl⟩ := List.getElem?_eq_some_iff.mp hb
  obtain ⟨hj, rfl⟩ := List.getElem?_eq_some_iff.mp hc
  apply (List.pairwise_iff_getElem.mp hsorted.2) i j hi hj hij x hx y hy

/-- The first element of a block has the smallest key. -/
theorem head_le_of_sorted (hsorted : blocks.flatten.Pairwise fun x y => key x ≤ key y)
    {i : Nat} {b : List α} {x y : α} (hb : blocks[i]? = some b) (hx : b.head? = some x)
    (hy : y ∈ b) :
  key x ≤ key y
  := by
  rw [List.pairwise_flatten] at hsorted
  have hpair := hsorted.1 b (List.mem_of_getElem? hb)
  cases b with
  | nil => simp at hx
  | cons a b =>
    obtain rfl : a = x := by simpa using hx
    rcases List.mem_cons.mp hy with rfl | hy
    · apply le_refl
    · apply (List.pairwise_cons.mp hpair).1 y hy

/-- The fences of sorted blocks are sorted. -/
theorem FencesOf.mono (hfences : FencesOf key blocks fences)
    (hsorted : blocks.flatten.Pairwise fun x y => key x ≤ key y) {i j : Nat} {f g : κ}
    (hij : i ≤ j) (hf : fences[i]? = some f) (hg : fences[j]? = some g) :
  f ≤ g
  := by
  rcases Nat.lt_or_eq_of_le hij with hij | rfl
  · have hlen := hfences.length_eq
    have hj : j < fences.length := (List.getElem?_eq_some_iff.mp hg).1
    obtain ⟨b, hb⟩ : ∃ b, blocks[i]? = some b := ⟨_, List.getElem?_eq_getElem (by omega)⟩
    obtain ⟨c, hc⟩ : ∃ c, blocks[j]? = some c := ⟨_, List.getElem?_eq_getElem (by omega)⟩
    obtain ⟨x, hx, hfx⟩ := hfences.getElem? hb
    obtain ⟨y, hy, hgy⟩ := hfences.getElem? hc
    obtain rfl : key x = f := by simpa [hf] using hfx.symm
    obtain rfl : key y = g := by simpa [hg] using hgy.symm
    apply key_le_of_sorted hsorted hij hb hc (List.mem_of_head? hx) (List.mem_of_head? hy)
  · obtain rfl : f = g := by simpa [hf] using hg
    apply le_refl

/-- A candidate is a block that is there. -/
theorem candidates_lt {h : κ} {i : Nat} (hi : i ∈ candidates fences h) :
  i < fences.length
  := by
  have hlo := (List.takeWhile_prefix (p := fun f => decide (f < h)) (l := fences)).length_le
  have heq := (List.takeWhile_prefix (p := fun f => decide (f = h))
    (l := fences.drop (fences.takeWhile (· < h)).length)).length_le
  rw [List.length_drop] at heq
  rw [candidates, List.mem_append, List.mem_range'_1] at hi
  rcases hi with hi | hi
  · omega
  · split at hi
    · simp only [Option.toList_some, List.mem_singleton] at hi
      omega
    · simp at hi

theorem FencesOf.pairwise (hfences : FencesOf key blocks fences)
    (hsorted : blocks.flatten.Pairwise fun x y => key x ≤ key y) :
  fences.Pairwise (· ≤ ·)
  := by
  rw [List.pairwise_iff_getElem]
  intro i j hi hj hij
  apply hfences.mono hsorted hij.le (List.getElem?_eq_getElem hi) (List.getElem?_eq_getElem hj)

theorem le_of_pairwise (hmono : fences.Pairwise (· ≤ ·)) {i j : Nat} {f g : κ} (hij : i ≤ j)
    (hf : fences[i]? = some f) (hg : fences[j]? = some g) :
  f ≤ g
  := by
  obtain ⟨hi, rfl⟩ := List.getElem?_eq_some_iff.mp hf
  obtain ⟨hj, rfl⟩ := List.getElem?_eq_some_iff.mp hg
  rcases Nat.lt_or_eq_of_le hij with hij | rfl
  · apply (List.pairwise_iff_getElem.mp hmono) i j hi hj hij
  · apply le_refl

/-- The fences below `h` are those before the first that is not. -/
theorem lt_length_below_iff (hmono : fences.Pairwise (· ≤ ·)) {h f : κ} {i : Nat}
    (hf : fences[i]? = some f) :
  i < (fences.takeWhile (· < h)).length ↔ f < h
  := by
  constructor
  · intro hi
    simpa using of_lt_length_takeWhile hi hf
  · intro hlt
    apply lt_length_takeWhile
    · intro j g hj hg
      simpa using lt_of_le_of_lt (le_of_pairwise hmono hj hg hf) hlt
    · apply (List.getElem?_eq_some_iff.mp hf).1

/-- The run of blocks that `candidates` starts with are those whose fence is `h`. -/
theorem mem_equal_iff (hmono : fences.Pairwise (· ≤ ·)) {h : κ} {i : Nat} :
  i ∈ List.range' (fences.takeWhile (· < h)).length
      ((fences.drop (fences.takeWhile (· < h)).length).takeWhile (· = h)).length
    ↔ fences[i]? = some h
  := by
  set lo := (fences.takeWhile (· < h)).length
  rw [List.mem_range'_1]
  constructor
  · rintro ⟨hlo, hi⟩
    have hlen := (List.takeWhile_prefix (p := fun f => decide (f = h)) (l := fences.drop lo)).length_le
    rw [List.length_drop] at hlen
    obtain ⟨f, hf⟩ : ∃ f, fences[i]? = some f := ⟨_, List.getElem?_eq_getElem (by omega)⟩
    have hrun : i - lo < ((fences.drop lo).takeWhile (· = h)).length := by omega
    have hdrop : (fences.drop lo)[i - lo]? = some f := by
      rw [List.getElem?_drop, Nat.add_sub_cancel' hlo, hf]
    have heq := of_lt_length_takeWhile hrun hdrop
    rw [decide_eq_true_eq] at heq
    rw [hf, heq]
  · intro hf
    have hlo : lo ≤ i := by
      rw [← not_lt, lt_length_below_iff hmono hf]
      apply lt_irrefl
    refine ⟨hlo, ?_⟩
    have hi := (List.getElem?_eq_some_iff.mp hf).1
    have hrun : i - lo < ((fences.drop lo).takeWhile (· = h)).length := by
      apply lt_length_takeWhile
      · intro j f hj hfj
        rw [List.getElem?_drop] at hfj
        have hge : ¬ f < h := by
          rw [← lt_length_below_iff hmono hfj]
          omega
        rw [decide_eq_true_eq]
        apply le_antisymm (le_of_pairwise hmono (by omega) hfj hf) (not_lt.mp hge)
      · rw [List.length_drop]
        omega
    omega

/-- The block of every element is among the candidates for the element's key. -/
theorem mem_candidates (hsorted : blocks.flatten.Pairwise fun x y => key x ≤ key y)
    (hfences : FencesOf key blocks fences) {i : Nat} {b : List α} {x : α}
    (hb : blocks[i]? = some b) (hx : x ∈ b) :
  i ∈ candidates fences (key x)
  := by
  have hmono := hfences.pairwise hsorted
  obtain ⟨x₀, hx₀, hf⟩ := hfences.getElem? hb
  have hle : key x₀ ≤ key x := head_le_of_sorted hsorted hb hx₀ hx
  rw [candidates, List.mem_append]
  rcases lt_or_eq_of_le hle with hlt | heq
  · right
    have hlo := (lt_length_below_iff hmono hf).mpr hlt
    have hlast : ¬ i + 1 < (fences.takeWhile (· < key x)).length := by
      intro hi
      have hlen := (List.takeWhile_prefix (p := fun f => decide (f < key x)) (l := fences)).length_le
      have hblocks := hfences.length_eq
      obtain ⟨c, hc⟩ : ∃ c, blocks[i + 1]? = some c := ⟨_, List.getElem?_eq_getElem (by omega)⟩
      obtain ⟨y, hy, hfy⟩ := hfences.getElem? hc
      have hxy := key_le_of_sorted hsorted (Nat.lt_succ_self i) hb hc hx (List.mem_of_head? hy)
      apply absurd ((lt_length_below_iff hmono hfy).mp hi) (not_lt_of_ge hxy)
    rw [if_pos (by omega)]
    simp only [Option.toList_some, List.mem_singleton]
    omega
  · left
    apply (mem_equal_iff hmono).mpr
    rw [hf, heq]

end

/-! ### The probe order -/

/-- The order in which the candidates for `h` are probed: first the blocks whose fence is
`h`, ascending, and last the block before the first fence that is not below `h`. -/
structure ProbeOrder {κ : Type} [LT κ] [LE κ] (fences : List κ) (h : κ) (equal back : List Nat) :
    Prop where
  ascending : equal.Pairwise (· < ·)
  mem_equal : ∀ i, i ∈ equal ↔ fences[i]? = some h
  length_back : back.length ≤ 1
  mem_back : ∀ i, i ∈ back ↔
    (∃ f, fences[i]? = some f ∧ f < h) ∧ ∀ g, fences[i + 1]? = some g → h ≤ g
  back_before : ∀ e, equal.head? = some e → back = if e = 0 then [] else [e - 1]

/-- A probe order is read off any order-preserving image of the fences. -/
theorem ProbeOrder.of_map {κ ι : Type} [LT κ] [LE κ] [LT ι] [LE ι] {f : κ → ι}
    (hinj : Function.Injective f) (hlt : ∀ a b, f a < f b ↔ a < b)
    (hle : ∀ a b, f a ≤ f b ↔ a ≤ b) {fences : List κ} {h : κ} {equal back : List Nat}
    (ho : ProbeOrder (fences.map f) (f h) equal back) :
  ProbeOrder fences h equal back
  := by
  refine ⟨ho.ascending, ?_, ho.length_back, ?_, ho.back_before⟩
  · intro i
    rw [ho.mem_equal, List.getElem?_map, Option.map_eq_some_iff]
    constructor
    · rintro ⟨g, hg, heq⟩
      rw [hg, hinj heq]
    · intro hg
      exact ⟨h, hg, rfl⟩
  · intro i
    simp only [ho.mem_back, List.getElem?_map, Option.map_eq_some_iff, forall_exists_index, and_imp,
      forall_apply_eq_imp_iff₂, exists_exists_and_eq_and, hlt, hle]

section

variable {κ : Type} [LinearOrder κ] {fences : List κ} {h : κ}

/-- The candidates among sorted fences are in the order in which they are to be probed. -/
theorem candidates_probeOrder (hmono : fences.Pairwise (· ≤ ·)) :
  ∃ equal back, candidates fences h = equal ++ back ∧ ProbeOrder fences h equal back
  := by
  refine ⟨_, _, rfl, List.pairwise_lt_range' _ (by omega), fun i => mem_equal_iff hmono, ?_, ?_, ?_⟩
  · split <;> simp
  · intro i
    have hlen := (List.takeWhile_prefix (p := fun f => decide (f < h)) (l := fences)).length_le
    constructor
    · intro hi
      split at hi
      · next hpos =>
        simp only [Option.toList_some, List.mem_singleton] at hi
        obtain ⟨f, hf⟩ : ∃ f, fences[i]? = some f := ⟨_, List.getElem?_eq_getElem (by omega)⟩
        refine ⟨⟨f, hf, (lt_length_below_iff hmono hf).mp (by omega)⟩, ?_⟩
        intro g hg
        rw [← not_lt, ← lt_length_below_iff hmono hg]
        omega
      · simp at hi
    · rintro ⟨⟨f, hf, hlt⟩, hnext⟩
      have hi := (lt_length_below_iff hmono hf).mpr hlt
      have hlast : ¬ i + 1 < (fences.takeWhile (· < h)).length := by
        intro hlt'
        obtain ⟨g, hg⟩ : ∃ g, fences[i + 1]? = some g := ⟨_, List.getElem?_eq_getElem (by omega)⟩
        apply absurd ((lt_length_below_iff hmono hg).mp hlt') (not_lt.mpr (hnext g hg))
      rw [if_pos (by omega)]
      simp only [Option.toList_some, List.mem_singleton]
      omega
  · intro e he
    rw [List.head?_range'] at he
    split at he
    · simp at he
    · obtain rfl := Option.some.inj he
      rcases Nat.eq_zero_or_pos (fences.takeWhile (· < h)).length with hzero | hpos
      · simp [hzero]
      · rw [if_pos hpos, if_neg hpos.ne', Option.toList_some]

/-- No block is searched twice. -/
theorem candidates_nodup : (candidates fences h).Nodup
  := by
  rw [candidates, List.nodup_append]
  refine ⟨List.nodup_range', ?_, ?_⟩
  · split <;> simp
  · intro i hi j hj
    rw [List.mem_range'_1] at hi
    split at hj
    · simp only [Option.toList_some, List.mem_singleton] at hj
      omega
    · simp at hj

/-- There is nothing to search only when there are no blocks, or when `h` is below all of
them. -/
theorem candidates_eq_nil_iff (hmono : fences.Pairwise (· ≤ ·)) :
  candidates fences h = [] ↔ fences = [] ∨ ∃ f, fences[0]? = some f ∧ h < f
  := by
  obtain ⟨equal, back, heq, ho⟩ := candidates_probeOrder (h := h) hmono
  rw [heq, List.append_eq_nil_iff]
  cases hf : fences[0]? with
  | none =>
    obtain rfl : fences = [] := by simpa using hf
    have hequal : equal = [] := by
      rw [List.eq_nil_iff_forall_not_mem]
      intro i hi
      simpa using (ho.mem_equal i).mp hi
    have hback : back = [] := by
      rw [List.eq_nil_iff_forall_not_mem]
      intro i hi
      simpa using ((ho.mem_back i).mp hi).1
    simp [hequal, hback]
  | some f =>
    have hne : fences ≠ [] := by
      rintro rfl
      simp at hf
    simp only [hne, false_or, Option.some.injEq, exists_eq_left']
    constructor
    · rintro ⟨hequal, hback⟩
      rcases lt_trichotomy h f with hlt | rfl | hlt
      · exact hlt
      · have hmem := (ho.mem_equal 0).mpr hf
        simp [hequal] at hmem
      · have hmem : candidates fences h ≠ [] := by
          have hlo := (lt_length_below_iff hmono hf).mpr hlt
          rw [candidates, if_pos hlo]
          simp
        rw [heq, hequal, hback] at hmem
        exact absurd rfl hmem
    · intro hlt
      constructor
      · rw [List.eq_nil_iff_forall_not_mem]
        intro i hi
        have hle := le_of_pairwise hmono (Nat.zero_le i) hf ((ho.mem_equal i).mp hi)
        exact absurd hlt (not_lt.mpr hle)
      · rw [List.eq_nil_iff_forall_not_mem]
        intro i hi
        obtain ⟨⟨g, hg, hgh⟩, -⟩ := (ho.mem_back i).mp hi
        have hle := le_of_pairwise hmono (Nat.zero_le i) hf hg
        exact absurd (hgh.trans hlt) (not_lt.mpr hle)

end

end Fences
