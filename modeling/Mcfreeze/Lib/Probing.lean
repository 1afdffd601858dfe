import Mathlib.Data.List.Perm.Basic

/-!
# Tables with linear probing

A table is a list of slots, some of which are free; `home` is the position at which the
search for an element starts, and positions count modulo the length of the table.

The table is *chained* when, from the home of every element up to its position, all slots
are occupied.  Then a search that starts at the home and goes on up to the first free slot
meets the element.  Placing an element at the end of an occupied path keeps the table
chained, also when the slot was occupied and its old element is carried on.
-/

namespace Probing

variable {β : Type} {free : β → Bool} {home : β → Nat} {t : List β} {x y : β}

/-- The `k` slots from `start` on are occupied. -/
def Path (free : β → Bool) (t : List β) (start k : Nat) : Prop :=
  ∀ j < k, ∃ x, t[(start + j) % t.length]? = some x ∧ free x = false

/-- The slots from the home of every element up to its position are occupied. -/
def Chained (free : β → Bool) (home : β → Nat) (t : List β) : Prop :=
  ∀ p x, t[p]? = some x → free x = false →
    ∃ k, p = (home x + k) % t.length ∧ Path free t (home x) k

/-- The position can be reached from the home of the element. -/
def Reaches (free : β → Bool) (home : β → Nat) (t : List β) (x : β) (p : Nat) : Prop :=
  ∃ k, p = (home x + k) % t.length ∧ Path free t (home x) k

/-- The position is at the given distance from the home of the element, and the slots
before it are occupied. -/
structure ReachesIn (free : β → Bool) (home : β → Nat) (t : List β) (x : β) (p k : Nat) : Prop where
  position : p = (home x + k) % t.length
  path : Path free t (home x) k

theorem ReachesIn.reaches {p k : Nat} (h : ReachesIn free home t x p k) :
  Reaches free home t x p
  :=
  ⟨k, h.position, h.path⟩

theorem ReachesIn.start (hp : home x % t.length = home x) :
  ReachesIn free home t x (home x) 0
  := by
  constructor
  · rw [Nat.add_zero, hp]
  · intro j hj
    omega

theorem Path.mono {start k k' : Nat} (h : Path free t start k) (hle : k' ≤ k) :
  Path free t start k'
  := by
  intro j hj
  apply h j (by omega)

/-- A path that goes around the table can be shortened. -/
theorem Reaches.shorten {p : Nat} (h : Reaches free home t x p) (hpos : 0 < t.length) :
  ∃ k < t.length, p = (home x + k) % t.length ∧ Path free t (home x) k
  := by
  obtain ⟨k, rfl, hpath⟩ := h
  refine ⟨k % t.length, Nat.mod_lt _ hpos, ?_, hpath.mono (Nat.mod_le _ _)⟩
  rw [Nat.add_mod_mod]

/-- The next position can be reached when this one is occupied. -/
theorem ReachesIn.next {p k : Nat} (h : ReachesIn free home t x p k) (hp : t[p]? = some y)
    (hy : free y = false) :
  ReachesIn free home t x ((p + 1) % t.length) (k + 1)
  := by
  obtain ⟨rfl, hpath⟩ := h
  constructor
  · rw [Nat.mod_add_mod, Nat.add_assoc]
  · intro j hj
    by_cases hjk : j < k
    · apply hpath j hjk
    · obtain rfl : j = k := by omega
      exact ⟨y, hp, hy⟩

/-- Every position is met within one round. -/
theorem exists_distance {n p : Nat} (start : Nat) (hp : p < n) :
  ∃ k < n, (start + k) % n = p
  := by
  have hstart : start % n < n := Nat.mod_lt _ (by omega)
  refine ⟨(p + (n - start % n)) % n, Nat.mod_lt _ (by omega), ?_⟩
  rw [Nat.add_mod_mod, ← Nat.mod_add_mod]
  have hround : start % n + (p + (n - start % n)) = p + n := by omega
  rw [hround, Nat.add_mod_right, Nat.mod_eq_of_lt hp]

/-- A path ends before it has gone around, if a slot is free. -/
theorem Path.lt_length {start k p : Nat} (h : Path free t start k) (hp : t[p]? = some x)
    (hx : free x = true) :
  k < t.length
  := by
  by_contra hk
  obtain ⟨j, hj, hround⟩ := exists_distance start (List.getElem?_eq_some_iff.mp hp).1
  obtain ⟨y, hy, hfree⟩ := h j (by omega)
  rw [hround, hp] at hy
  rw [← Option.some.inj hy, hx] at hfree
  simp at hfree

/-- A path stays one when an element is put into the table. -/
theorem Path.set {start k p : Nat} (h : Path free t start k) (hx : free x = false) :
  Path free (t.set p x) start k
  := by
  intro j hj
  obtain ⟨z, hz, hfree⟩ := h j hj
  rw [List.length_set]
  by_cases hp : (start + j) % t.length = p
  · have hlt : p < t.length := by
      rw [← hp]
      apply (List.getElem?_eq_some_iff.mp hz).1
    refine ⟨x, ?_, hx⟩
    rw [hp, List.getElem?_set_self hlt]
  · refine ⟨z, ?_, hfree⟩
    rw [List.getElem?_set_ne (Ne.symm hp), hz]

theorem ReachesIn.set {p q k : Nat} (h : ReachesIn free home t y q k) (hx : free x = false) :
  ReachesIn free home (t.set p x) y q k
  := by
  constructor
  · rw [List.length_set]
    apply h.position
  · apply h.path.set hx

/-! ### Searching -/

/-- The elements from `start` on up to the first free slot, at most `m` of them. -/
def scan (free : β → Bool) (t : List β) : Nat → Nat → List β
  | _, 0 => []
  | start, m + 1 =>
    match t[start % t.length]? with
    | none => []
    | some x => if free x then [] else x :: scan free t (start + 1) m

/-- A scan finds only what the table has, and nothing that is free. -/
theorem mem_of_mem_scan {start m : Nat} (h : x ∈ scan free t start m) :
  x ∈ t ∧ free x = false
  := by
  induction m generalizing start with
  | zero => simp [scan] at h
  | succ m ih =>
    rw [scan] at h
    split at h
    · simp at h
    · next z hz =>
      split at h
      · simp at h
      · next hfree =>
        rcases List.mem_cons.mp h with rfl | h
        · exact ⟨List.mem_of_getElem? hz, by simpa using hfree⟩
        · apply ih h

/-- Everything on an occupied path is met. -/
theorem scan_length_of_path {start m : Nat} (h : Path free t start m) :
  (scan free t start m).length = m
  := by
  induction m generalizing start with
  | zero => rfl
  | succ m ih =>
    obtain ⟨z, hz, hfree⟩ := h 0 (by omega)
    rw [Nat.add_zero] at hz
    rw [scan, hz]
    simp only [hfree, Bool.false_eq_true, if_false, List.length_cons]
    rw [ih]
    intro j hj
    obtain ⟨w, hw, hwfree⟩ := h (j + 1) (by omega)
    refine ⟨w, ?_, hwfree⟩
    rw [← hw]
    congr 2
    omega

/-- The element at the end of an occupied path is met. -/
theorem mem_scan {start k m : Nat} (hpath : Path free t start k) (hk : k < m)
    (hx : t[(start + k) % t.length]? = some x) (hfree : free x = false) :
  x ∈ scan free t start m
  := by
  induction k generalizing start m with
  | zero =>
    obtain ⟨m, rfl⟩ : ∃ m', m = m' + 1 := ⟨m - 1, by omega⟩
    rw [Nat.add_zero] at hx
    simp [scan, hx, hfree]
  | succ k ih =>
    obtain ⟨m, rfl⟩ : ∃ m', m = m' + 1 := ⟨m - 1, by omega⟩
    obtain ⟨z, hz, hzfree⟩ := hpath 0 (by omega)
    rw [Nat.add_zero] at hz
    rw [scan, hz]
    simp only [hzfree, Bool.false_eq_true, if_false]
    apply List.mem_cons_of_mem
    apply ih
    · intro j hj
      obtain ⟨w, hw, hwfree⟩ := hpath (j + 1) (by omega)
      refine ⟨w, ?_, hwfree⟩
      rw [← hw]
      congr 2
      omega
    · omega
    · rw [← hx]
      congr 2
      omega

/-! ### The elements -/

/-- The elements of a table. -/
def elements (free : β → Bool) (t : List β) : List β :=
  t.filter fun x => !free x

theorem elements_replicate (n : Nat) (hx : free x = true) :
  elements free (List.replicate n x) = []
  := by
  simp [elements, hx]

/-- A table with fewer elements than slots has a free slot. -/
theorem exists_free (h : (elements free t).length < t.length) :
  ∃ (p : Nat) (x : β), t[p]? = some x ∧ free x = true
  := by
  by_contra hnone
  have hall : ∀ x ∈ t, (!free x) = true := by
    intro x hx
    obtain ⟨p, hp⟩ := List.getElem?_of_mem hx
    cases hfree : free x with
    | false => rfl
    | true => exact absurd ⟨p, x, hp, hfree⟩ hnone
  rw [elements, List.filter_eq_self.mpr hall] at h
  omega

/-- The element that is replaced goes out, and the other comes in. -/
theorem cons_set_perm {p : Nat} (hp : t[p]? = some y) :
  (y :: t.set p x).Perm (x :: t)
  := by
  obtain ⟨hlt, hget⟩ := List.getElem?_eq_some_iff.mp hp
  have ht : t = t.take p ++ y :: t.drop (p + 1) := by
    rw [← hget, ← List.drop_eq_getElem_cons hlt, List.take_append_drop]
  have hset : t.set p x = t.take p ++ x :: t.drop (p + 1) :=
    List.set_eq_take_append_cons_drop.trans (if_pos hlt)
  rw [hset]
  conv => rhs; rw [ht]
  have h₁ : (y :: (t.take p ++ x :: t.drop (p + 1))).Perm (y :: x :: (t.take p ++ t.drop (p + 1))) :=
    List.perm_middle.cons y
  have h₂ : (x :: (t.take p ++ y :: t.drop (p + 1))).Perm (x :: y :: (t.take p ++ t.drop (p + 1))) :=
    List.perm_middle.cons x
  exact h₁.trans ((List.Perm.swap x y _).trans h₂.symm)

/-- Filling a free slot adds an element. -/
theorem elements_set_free {p : Nat} (hp : t[p]? = some y) (hy : free y = true)
    (hx : free x = false) :
  (elements free (t.set p x)).Perm (x :: elements free t)
  := by
  have h := (cons_set_perm (x := x) hp).filter fun z => !free z
  simpa [hy, hx, elements] using h

/-- Replacing an element exchanges the two. -/
theorem elements_set_occupied {p : Nat} (hp : t[p]? = some y) (hy : free y = false)
    (hx : free x = false) :
  (y :: elements free (t.set p x)).Perm (x :: elements free t)
  := by
  have h := (cons_set_perm (x := x) hp).filter fun z => !free z
  simpa [hy, hx, elements] using h

/-! ### Robin Hood order

When an element is carried on only past elements whose home is not after its own, and takes
the place of the others, the elements stand in the order of their homes.  Here positions do
not wrap around.  A long way from a home then means that many elements have their homes close
together. -/

/-- The slots from `a` up to `b` are occupied by elements whose home is at most `h`. -/
def Crowd (free : β → Bool) (home : β → Nat) (t : List β) (h a b : Nat) : Prop :=
  ∀ q, a ≤ q → q < b → ∃ y, t[q]? = some y ∧ free y = false ∧ home y ≤ h

/-- No element between the home of an element and its position has a later home. -/
def Ordered (free : β → Bool) (home : β → Nat) (t : List β) : Prop :=
  ∀ p x, t[p]? = some x → free x = false → home x ≤ p ∧ Crowd free home t (home x) (home x) (p + 1)

/-- An element that has been carried up to a position past no element with a later home. -/
structure Carried (free : β → Bool) (home : β → Nat) (t : List β) (x : β) (p : Nat) : Prop where
  le : home x ≤ p
  crowd : Crowd free home t (home x) (home x) p

/-- The element may take the slot: it is free, or its element does not have an earlier
home. -/
def MayTake (free : β → Bool) (home : β → Nat) (t : List β) (x : β) (p : Nat) : Prop :=
  ∀ y, t[p]? = some y → free y = false → home x ≤ home y

/-- A crowd stays one when an element takes a place that it may take. -/
theorem Crowd.set {h a b p : Nat} (hc : Crowd free home t h a b) (hx : free x = false)
    (htake : MayTake free home t x p) :
  Crowd free home (t.set p x) h a b
  := by
  intro q ha hb
  obtain ⟨y, hy, hfree, hhome⟩ := hc q ha hb
  by_cases hq : p = q
  · subst hq
    have hlt := (List.getElem?_eq_some_iff.mp hy).1
    have hle := htake y hy hfree
    exact ⟨x, List.getElem?_set_self hlt, hx, by omega⟩
  · refine ⟨y, ?_, hfree, hhome⟩
    rwa [List.getElem?_set_ne hq]

theorem Carried.start :
  Carried free home t x (home x)
  := by
  constructor
  · apply Nat.le_refl
  · intro q hle hlt
    omega

/-- Carrying an element past one whose home is not later. -/
theorem Carried.next {p : Nat} (h : Carried free home t x p) (hp : t[p]? = some y)
    (hy : free y = false) (hle : home y ≤ home x) :
  Carried free home t x (p + 1)
  := by
  constructor
  · have := h.le
    omega
  · intro q ha hb
    by_cases hq : q = p
    · subst hq
      exact ⟨y, hp, hy, hle⟩
    · apply h.crowd q ha (by omega)

/-- Placing the carried element keeps the order. -/
theorem Ordered.set {p : Nat} (h : Ordered free home t) (hc : Carried free home t x p)
    (hx : free x = false) (htake : MayTake free home t x p) :
  Ordered free home (t.set p x)
  := by
  intro q z hz hfree
  by_cases hq : p = q
  · subst hq
    have hlt : p < t.length := by
      have := (List.getElem?_eq_some_iff.mp hz).1
      rwa [List.length_set] at this
    rw [List.getElem?_set_self hlt] at hz
    obtain rfl := Option.some.inj hz
    refine ⟨hc.le, ?_⟩
    intro r ha hb
    by_cases hr : r = p
    · subst hr
      exact ⟨x, List.getElem?_set_self hlt, hx, Nat.le_refl _⟩
    · apply hc.crowd.set hx htake r ha (by omega)
  · rw [List.getElem?_set_ne hq] at hz
    obtain ⟨hle, hcrowd⟩ := h q z hz hfree
    exact ⟨hle, hcrowd.set hx htake⟩

/-- The element whose slot is taken is carried on. -/
theorem Ordered.evicted {p : Nat} (h : Ordered free home t) (hp : t[p]? = some y)
    (hy : free y = false) (hx : free x = false) (htake : MayTake free home t x p) :
  Carried free home (t.set p x) y (p + 1)
  := by
  obtain ⟨hle, hcrowd⟩ := h p y hp hy
  constructor
  · omega
  · apply hcrowd.set hx htake

/-- The elements of a crowd have their homes close together. -/
theorem Ordered.countP_crowd {h a b : Nat} (ho : Ordered free home t)
    (hc : Crowd free home t h a b) :
  ∃ s ≤ a, b - s ≤ (elements free t).countP fun y => decide (s ≤ home y ∧ home y ≤ h)
  := by
  induction a using Nat.strongRecOn with
  | ind a ih =>
    by_cases hearly : ∃ q y, a ≤ q ∧ q < b ∧ t[q]? = some y ∧ free y = false ∧ home y < a
    · obtain ⟨q, y, ha, hb, hy, hfree, hlt⟩ := hearly
      have hle : home y ≤ h := by
        obtain ⟨y', hy', -, hle⟩ := hc q ha hb
        rw [hy] at hy'
        rwa [Option.some.inj hy']
      have hwider : Crowd free home t h (home y) b := by
        intro r hr hrb
        by_cases hra : a ≤ r
        · apply hc r hra hrb
        · obtain ⟨z, hz, hzfree, hzle⟩ := (ho q y hy hfree).2 r hr (by omega)
          exact ⟨z, hz, hzfree, by omega⟩
      obtain ⟨s, hs, hcount⟩ := ih (home y) hlt hwider
      exact ⟨s, by omega, hcount⟩
    · refine ⟨a, Nat.le_refl a, ?_⟩
      by_cases hab : b ≤ a
      · omega
      · have hb : b ≤ t.length := by
          obtain ⟨y, hy, -⟩ := hc (b - 1) (by omega) (by omega)
          have := (List.getElem?_eq_some_iff.mp hy).1
          omega
        have hlength : ((t.drop a).take (b - a)).length = b - a := by
          rw [List.length_take, List.length_drop]
          omega
        have hall : ∀ y ∈ (t.drop a).take (b - a),
            (decide (a ≤ home y ∧ home y ≤ h) && !free y) = true := by
          intro y hy
          obtain ⟨i, hi⟩ := List.getElem?_of_mem hy
          have hlt := (List.getElem?_eq_some_iff.mp hi).1
          rw [hlength] at hlt
          rw [List.getElem?_take_of_lt hlt, List.getElem?_drop] at hi
          obtain ⟨z, hz, hzfree, hzle⟩ := hc (a + i) (by omega) (by omega)
          obtain rfl := Option.some.inj (hi.symm.trans hz)
          have hge : a ≤ home y := by
            by_contra hlt'
            exact hearly ⟨a + i, y, by omega, by omega, hi, hzfree, by omega⟩
          simp [hge, hzle, hzfree]
        rw [elements, List.countP_filter]
        calc b - a
            = ((t.drop a).take (b - a)).countP
                fun y => decide (a ≤ home y ∧ home y ≤ h) && !free y := by
              rw [List.countP_eq_length.mpr hall, hlength]
          _ ≤ t.countP fun y => decide (a ≤ home y ∧ home y ≤ h) && !free y :=
              ((List.take_sublist _ _).trans (List.drop_sublist _ _)).countP_le

/-- The elements whose positions are among given ones are at most as many. -/
theorem countP_le_positions {P : β → Bool} {ps : List Nat}
    (h : ∀ p x, t[p]? = some x → P x = true → p ∈ ps) :
  t.countP P ≤ ps.length
  := by
  have hpositions : t.countP P
      = ((List.range t.length).filter fun p => (t[p]?.map P).getD false).length := by
    rw [← List.countP_eq_length_filter]
    have ht : t.map some = (List.range t.length).map fun p => t[p]? := by
      apply List.ext_getElem?
      intro p
      rw [List.getElem?_map, List.getElem?_map]
      by_cases hp : p < t.length
      · simp [hp]
      · simp [hp]
    have hcount := congrArg (List.countP fun x : Option β => (x.map P).getD false) ht
    rw [List.countP_map, List.countP_map] at hcount
    apply hcount
  rw [hpositions]
  apply (List.subperm_of_subset _ _).length_le
  · apply List.nodup_range.filter
  · intro p hp
    obtain ⟨-, hp⟩ := List.mem_filter.mp hp
    cases hx : t[p]? with
    | none => simp [hx] at hp
    | some x => exact h p x hx (by simpa [hx] using hp)

end Probing
