import Mathlib.Data.List.Forall2
import Mathlib.Data.List.Perm.Basic

/-!
# Lists

Lists that are related element by element, a list that is distributed over buckets, suffixes
of a list that grows at the front, counts that agree, maps that do not fail, and the first
element that fails a test.
-/

namespace List

variable {α β γ : Type} {R : α → β → Prop} {l : List α} {m : List β}

theorem Forall₂.exists_right (h : Forall₂ R l m) {a : α} (ha : a ∈ l) :
  ∃ b ∈ m, R a b
  := by
  induction h with
  | nil => simp at ha
  | @cons x y l m hxy _ ih =>
    rcases mem_cons.mp ha with rfl | ha
    · exact ⟨y, mem_cons_self, hxy⟩
    · obtain ⟨b, hb, hab⟩ := ih ha
      exact ⟨b, mem_cons_of_mem _ hb, hab⟩

theorem Forall₂.exists_left (h : Forall₂ R l m) {b : β} (hb : b ∈ m) :
  ∃ a ∈ l, R a b
  := by
  induction h with
  | nil => simp at hb
  | @cons x y l m hxy _ ih =>
    rcases mem_cons.mp hb with rfl | hb
    · exact ⟨x, mem_cons_self, hxy⟩
    · obtain ⟨a, ha, hab⟩ := ih hb
      exact ⟨a, mem_cons_of_mem _ ha, hab⟩

/-- Elements at the same place are related. -/
theorem Forall₂.of_getElem? (h : Forall₂ R l m) {i : Nat} {a : α} {b : β} (ha : l[i]? = some a)
    (hb : m[i]? = some b) :
  R a b
  := by
  induction h generalizing i with
  | nil => simp at ha
  | @cons x y l m hxy _ ih =>
    cases i with
    | zero =>
      obtain rfl : x = a := by simpa using ha
      obtain rfl : y = b := by simpa using hb
      apply hxy
    | succ i =>
      rw [getElem?_cons_succ] at ha hb
      apply ih ha hb

theorem Forall₂.map_eq (h : Forall₂ R l m) {f : α → γ} {g : β → γ}
    (hfg : ∀ a b, R a b → f a = g b) :
  l.map f = m.map g
  := by
  induction h with
  | nil => rfl
  | cons hxy _ ih => rw [map_cons, map_cons, hfg _ _ hxy, ih]

/-- Distributing a list over the buckets `0` to `n - 1` and concatenating the buckets is a
permutation of what is sent to one of them. -/
theorem flatMap_range_filter_perm (g : α → Nat) (l : List α) (n : Nat) :
  ((range n).flatMap fun b => l.filter fun x => g x = b).Perm (l.filter fun x => g x < n)
  := by
  induction n with
  | zero => simp
  | succ n ih =>
    rw [range_succ, flatMap_append, flatMap_singleton]
    have hlt : (l.filter fun x => g x < n + 1).filter (fun x => g x < n)
        = l.filter fun x => g x < n := by
      rw [filter_filter]
      apply filter_congr
      intro x _
      rw [← Bool.decide_and]
      apply decide_eq_decide.mpr
      omega
    have heq : (l.filter fun x => g x < n + 1).filter (fun x => !decide (g x < n))
        = l.filter fun x => g x = n := by
      rw [filter_filter]
      apply filter_congr
      intro x _
      rw [← decide_not, ← Bool.decide_and]
      apply decide_eq_decide.mpr
      omega
    have hsplit := filter_append_perm (fun x => decide (g x < n)) (l.filter fun x => g x < n + 1)
    rw [hlt, heq] at hsplit
    apply (ih.append_right _).trans hsplit

/-- A suffix that does not start with the head is a suffix of the tail. -/
theorem suffix_of_suffix_cons {a b : α} {l m : List α} (h : a :: l <:+ b :: m) (hne : b ≠ a) :
  a :: l <:+ m
  := by
  rcases suffix_cons_iff.mp h with heq | hsuffix
  · rw [cons.injEq] at heq
    exact absurd heq.1.symm hne
  · apply hsuffix

/-- A stronger test that counts as many elements is the same test. -/
theorem forall_of_countP_eq {p q : α → Bool} (hqp : ∀ a, q a = true → p a = true)
    (h : l.countP p = l.countP q) :
  ∀ a ∈ l, p a = true → q a = true
  := by
  have hboth : (fun a => q a && p a) = q := by
    funext a
    cases hq : q a with
    | true => simp [hqp a hq]
    | false => simp
  have hall : (l.filter p).countP q = (l.filter p).length := by
    rw [countP_filter, hboth, ← h, countP_eq_length_filter]
  intro a ha hp
  apply countP_eq_length.mp hall a (mem_filter.mpr ⟨ha, hp⟩)

theorem mapM_eq_ok {ε : Type} {f : α → Except ε β} {g : α → β} (h : ∀ a ∈ l, f a = .ok (g a)) :
  l.mapM f = .ok (l.map g)
  := by
  induction l with
  | nil => rfl
  | cons a l ih =>
    rw [mapM_cons, h a mem_cons_self, ih fun b hb => h b (mem_cons_of_mem _ hb)]
    rfl

/-- What follows an element that fails the test does not matter. -/
theorem dropWhile_append_of_ne_nil {p : α → Bool} (h : l.dropWhile p ≠ []) (m : List α) :
  (l ++ m).dropWhile p = l.dropWhile p ++ m ∧ (l ++ m).takeWhile p = l.takeWhile p
  := by
  induction l with
  | nil => exact absurd rfl h
  | cons a l ih =>
    cases ha : p a with
    | false => simp [ha]
    | true =>
      rw [dropWhile_cons_of_pos ha] at h
      simp [ha, ih h]

end List
