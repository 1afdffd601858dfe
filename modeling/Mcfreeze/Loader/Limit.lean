import Mathlib.Logic.Relation
import Mathlib.Data.List.Forall2
import Mathlib.Algebra.Order.Ring.Int
import Mathlib.Algebra.Order.Ring.Nat
import Mathlib.Algebra.Order.BigOperators.Group.List

/-!
# A row limit shared by sources

The row limit of a capped load (`limit_sources` in `source.rs`).  The sources draw on one
budget: a call looks at it, asks the upstream for a batch, and then reserves the rows of the
batch.  The calls of different sources come between each other's steps, so that several
sources can reserve more than is left.

The budget is an `i64`.  It does not wrap as long as the batches that the sources can hold at
the same time have fewer than `2 ^ 63` rows together.
-/

namespace Loader

variable {ρ : Type}

/-- What an upstream yields, call by call; a batch is the list of its rows. -/
abbrev RecordBatchSource (ρ : Type) := List (Except String (List ρ))

/-- All rows of a source. -/
def RecordBatchSource.rows : RecordBatchSource ρ → List ρ
  | [] => []
  | .error _ :: rest => RecordBatchSource.rows rest
  | .ok batch :: rest => batch ++ RecordBatchSource.rows rest

/-- The length of the largest batch of a source. -/
def RecordBatchSource.largest : RecordBatchSource ρ → Nat
  | [] => 0
  | .error _ :: rest => RecordBatchSource.largest rest
  | .ok batch :: rest => max batch.length (RecordBatchSource.largest rest)

/-- What `take_from_budget` makes of a batch. -/
inductive Taken (ρ : Type) where
  | none
  | some (batch : List ρ)
  | panicked

/-- `RecordBatch::slice` from the first row, which panics when there are fewer rows. -/
def sliceBatch (batch : List ρ) (length : Nat) : Taken ρ :=
  if length ≤ batch.length then .some (batch.take length) else .panicked

/-- Reserve the rows of a batch, with what is left of the budget. -/
def takeFromBudget (remaining : Int64) (batch : List ρ) : Taken ρ × Int64 :=
  let n := Int64.ofNat batch.length
  let prev := remaining
  (if prev ≤ 0 then .none
    else if prev < n then sliceBatch batch prev.toUInt64.toNat
    else .some batch, remaining - n)

/-- Where the call of a source is: there is none, it waits for the upstream, it has a batch
to reserve, or it has returned the end of the stream. -/
inductive Stage (ρ : Type) where
  | idle
  | fetching
  | reserving (batch : List ρ)
  | ended
  | panicked

/-- A source under the limit; `upstream` is what the source has been made from, which no
code looks at, and `delivered` the rows that its calls have returned. -/
structure LimitedSource (ρ : Type) where
  upstream : RecordBatchSource ρ
  inner : RecordBatchSource ρ
  stage : Stage ρ
  delivered : List ρ

def LimitedSource.taken (s : LimitedSource ρ) : Taken ρ → LimitedSource ρ
  | .none => { s with stage := .ended }
  | .some batch => { s with stage := .idle, delivered := s.delivered ++ batch }
  | .panicked => { s with stage := .panicked }

/-- The next step of `next_batch`, with the budget that it leaves.  A failed call is over,
and the next call asks the upstream again. -/
def LimitedSource.next (s : LimitedSource ρ) (remaining : Int64) : LimitedSource ρ × Int64 :=
  match s.stage, s.inner with
  | .idle, _ => ({ s with stage := if remaining ≤ 0 then .ended else .fetching }, remaining)
  | .fetching, [] => ({ s with stage := .ended }, remaining)
  | .fetching, .error _ :: inner => ({ s with inner := inner, stage := .idle }, remaining)
  | .fetching, .ok batch :: inner =>
    ({ s with inner := inner, stage := .reserving batch }, remaining)
  | .reserving batch, _ =>
    (s.taken (takeFromBudget remaining batch).1, (takeFromBudget remaining batch).2)
  | .ended, _ => (s, remaining)
  | .panicked, _ => (s, remaining)

/-- The sources and the budget that they share. -/
structure Limited (ρ : Type) where
  remaining : Int64
  sources : List (LimitedSource ρ)

/-- `limit.min(i64::MAX as u64) as i64` rows are left to the sources. -/
def limitSources (sources : List (RecordBatchSource ρ)) (limit : UInt64) : Limited ρ where
  remaining := (min limit 0x7FFFFFFFFFFFFFFF).toInt64
  sources := sources.map fun inner => ⟨inner, inner, .idle, []⟩

/-- One of the sources takes a step. -/
inductive Limited.Step : Limited ρ → Limited ρ → Prop where
  | next {remaining : Int64} {before after : List (LimitedSource ρ)} {s : LimitedSource ρ} :
    Step ⟨remaining, before ++ s :: after⟩
      ⟨(s.next remaining).2, before ++ (s.next remaining).1 :: after⟩

/-- The states that the sources come by, in any order of their steps. -/
abbrev Limited.Reaches : Limited ρ → Limited ρ → Prop :=
  Relation.ReflTransGen Limited.Step

def Limited.totalDelivered (t : Limited ρ) : Nat :=
  (t.sources.map fun s => s.delivered.length).sum

theorem Limited.Step.of_next {remaining remaining' : Int64} {s s' : LimitedSource ρ}
    (before after : List (LimitedSource ρ)) (h : s.next remaining = (s', remaining')) :
  Limited.Step ⟨remaining, before ++ s :: after⟩ ⟨remaining', before ++ s' :: after⟩
  := by
  have hstep : Limited.Step ⟨remaining, before ++ s :: after⟩ _ := .next
  rwa [h] at hstep

/-! ### The budget -/

theorem toInt_limit (limit : UInt64) :
  (min limit 0x7FFFFFFFFFFFFFFF).toInt64.toInt = min limit.toNat (2 ^ 63 - 1)
  := by
  have hmin : (min limit 0x7FFFFFFFFFFFFFFF).toNat = min limit.toNat (2 ^ 63 - 1) := by
    rw [UInt64.toNat_min]
    rfl
  rw [← UInt64.ofNat_toNat (x := min limit 0x7FFFFFFFFFFFFFFF), UInt64.toInt64_ofNat',
    Int64.toInt_ofNat_of_lt (by omega), hmin]

theorem toInt_sub_ofNat {remaining : Int64} {n : Nat} (hn : n < 2 ^ 63)
    (h : -2 ^ 63 ≤ remaining.toInt - n) :
  (remaining - Int64.ofNat n).toInt = remaining.toInt - n
  := by
  rw [Int64.toInt_sub, Int64.toInt_ofNat_of_lt hn]
  have hlt := remaining.toInt_lt
  apply Int.bmod_eq_of_le
  · omega
  · omega

/-- A slice is taken of a batch that is longer than what is left. -/
theorem takeFromBudget_eq {remaining : Int64} {batch : List ρ} (hn : batch.length < 2 ^ 63) :
  (takeFromBudget remaining batch).1 =
    if remaining.toInt ≤ 0 then .none else .some (batch.take remaining.toInt.toNat)
  := by
  have hzero : (remaining ≤ 0) ↔ remaining.toInt ≤ 0 := Int64.le_iff_toInt_le
  have hlength : (remaining < Int64.ofNat batch.length) ↔ remaining.toInt < batch.length := by
    rw [Int64.lt_iff_toInt_lt, Int64.toInt_ofNat_of_lt hn]
  simp only [takeFromBudget, hzero, hlength]
  by_cases hle : remaining.toInt ≤ 0
  · rw [if_pos hle, if_pos hle]
  rw [if_neg hle, if_neg hle]
  have hcast : remaining.toUInt64.toNat = remaining.toInt.toNat := by
    apply Int64.toNat_toUInt64_of_le
    rw [Int64.le_iff_toInt_le, Int64.toInt_zero]
    omega
  by_cases hlt : remaining.toInt < batch.length
  · rw [if_pos hlt, hcast, sliceBatch, if_pos (by omega)]
  · rw [if_neg hlt, List.take_of_length_le (by omega)]

/-! ### One step -/

/-- The rows that a source has not delivered. -/
def LimitedSource.pending (s : LimitedSource ρ) : List ρ :=
  match s.stage with
  | .reserving batch => batch ++ s.inner.rows
  | _ => s.inner.rows

/-- By how much a source can overdraw the budget. -/
def LimitedSource.exposure (s : LimitedSource ρ) : Nat :=
  match s.stage with
  | .fetching => s.upstream.largest
  | .reserving _ => s.upstream.largest
  | _ => 0

/-- While there is budget left a source has lost no row. -/
structure LimitedSource.Sound (remaining : Int) (s : LimitedSource ρ) : Prop where
  inner : s.inner.largest ≤ s.upstream.largest
  batch : ∀ batch, s.stage = .reserving batch → batch.length ≤ s.upstream.largest
  safe : s.stage ≠ .panicked
  delivered : s.delivered <+: s.upstream.rows
  pending : 0 < remaining → s.upstream.rows = s.delivered ++ s.pending
  ended : 0 < remaining → s.stage = .ended → s.pending = []

theorem LimitedSource.Sound.mono {remaining remaining' : Int} {s : LimitedSource ρ}
    (h : s.Sound remaining) (hle : remaining' ≤ remaining) :
  s.Sound remaining'
  :=
  ⟨h.inner, h.batch, h.safe, h.delivered, fun hpos => h.pending (by omega),
    fun hpos => h.ended (by omega)⟩

theorem LimitedSource.Sound.init (remaining : Int) (inner : RecordBatchSource ρ) :
  LimitedSource.Sound remaining ⟨inner, inner, .idle, []⟩
  where
  inner := Nat.le_refl _
  batch := fun _ h => by cases h
  safe := fun h => by cases h
  delivered := List.nil_prefix
  pending := fun _ => rfl
  ended := fun _ h => by cases h

/-- What a step of a source does to the budget: what it takes is delivered, as far as there
is something left, and it overdraws the budget by no more than it was able to. -/
structure LimitedSource.Next (remaining : Int) (s s' : LimitedSource ρ) (remaining' : Int) :
    Prop where
  upstream : s'.upstream = s.upstream
  sound : s'.Sound remaining'
  le : remaining' ≤ remaining
  delivered : (s'.delivered.length : Int) + max remaining' 0 =
    s.delivered.length + max remaining 0
  overdrawn : remaining ≤ 0 → (s'.exposure : Int) - remaining' ≤ s.exposure - remaining
  spent : 0 < remaining → remaining' ≤ 0 → (s'.exposure : Int) - remaining' ≤ s.upstream.largest

/-- Without budget the batch is dropped, and the source has ended. -/
theorem LimitedSource.reserve_spent {s : LimitedSource ρ} {remaining : Int} {batch : List ρ}
    (hstage : s.stage = .reserving batch) (hs : s.Sound remaining) (hle : remaining ≤ 0) :
  s.Next remaining (s.taken .none) (remaining - batch.length)
  := by
  have hbatch := hs.batch batch hstage
  have hexposure : s.exposure = s.upstream.largest := by simp only [exposure, hstage]
  constructor
  case upstream => rfl
  case sound =>
    refine ⟨hs.inner, ?_, ?_, hs.delivered, ?_, ?_⟩
    · intro batch' h
      cases h
    · intro h
      cases h
    · intro hpos
      omega
    · intro hpos
      omega
  case le => omega
  case delivered =>
    simp only [taken]
    omega
  case overdrawn =>
    intro _
    have hdone : (s.taken .none).exposure = 0 := rfl
    omega
  case spent =>
    intro hpos
    omega

/-- With budget the source delivers what the budget allows. -/
theorem LimitedSource.reserve_taken {s : LimitedSource ρ} {remaining : Int} {batch : List ρ}
    (hstage : s.stage = .reserving batch) (hs : s.Sound remaining) (hpos : 0 < remaining) :
  s.Next remaining (s.taken (.some (batch.take remaining.toNat))) (remaining - batch.length)
  := by
  have hbatch := hs.batch batch hstage
  have hpending : s.upstream.rows = s.delivered ++ (batch ++ s.inner.rows) := by
    have h := hs.pending hpos
    simpa only [pending, hstage] using h
  constructor
  case upstream => rfl
  case sound =>
    refine ⟨hs.inner, ?_, ?_, ?_, ?_, ?_⟩
    · intro batch' h
      cases h
    · intro h
      cases h
    · simp only [taken]
      rw [hpending]
      apply (List.prefix_append_right_inj s.delivered).mpr
      exact (List.take_prefix _ _).trans (List.prefix_append _ _)
    · intro hleft
      simp only [taken, pending]
      rw [hpending, List.take_of_length_le (by omega), List.append_assoc]
    · intro _ h
      cases h
  case le => omega
  case delivered =>
    simp only [taken, List.length_append, List.length_take]
    omega
  case overdrawn =>
    intro h
    omega
  case spent =>
    intro _ _
    simp only [taken, exposure]
    omega

/-- The reservation of a batch delivers what the budget has left of it. -/
theorem LimitedSource.reserve_spec {s : LimitedSource ρ} {remaining : Int64} {batch : List ρ}
    (hstage : s.stage = .reserving batch) (hs : s.Sound remaining.toInt)
    (hlargest : s.upstream.largest < 2 ^ 63) (hroom : -2 ^ 63 ≤ remaining.toInt - s.exposure) :
  s.Next remaining.toInt (s.taken (takeFromBudget remaining batch).1)
    (takeFromBudget remaining batch).2.toInt
  := by
  have hbatch := hs.batch batch hstage
  have hexposure : s.exposure = s.upstream.largest := by simp only [exposure, hstage]
  have hsub : (takeFromBudget remaining batch).2.toInt = remaining.toInt - batch.length :=
    toInt_sub_ofNat (by omega) (by omega)
  rw [hsub, takeFromBudget_eq (by omega)]
  by_cases hle : remaining.toInt ≤ 0
  · rw [if_pos hle]
    apply reserve_spent hstage hs hle
  · rw [if_neg hle]
    apply reserve_taken hstage hs (by omega)

/-- A step that leaves the budget alone. -/
theorem LimitedSource.Next.quiet {s s' : LimitedSource ρ} {remaining : Int}
    (hupstream : s'.upstream = s.upstream) (hdelivered : s'.delivered = s.delivered)
    (hsound : s'.Sound remaining) (hexposure : remaining ≤ 0 → s'.exposure ≤ s.exposure) :
  s.Next remaining s' remaining
  where
  upstream := hupstream
  sound := hsound
  le := Int.le_refl _
  delivered := by rw [hdelivered]
  overdrawn := fun hle => by
    have hless := hexposure hle
    omega
  spent := fun hpos hle => by omega

/-- A new call looks at the budget. -/
theorem LimitedSource.idle_spec {s : LimitedSource ρ} {remaining : Int64}
    (hstage : s.stage = .idle) (hs : s.Sound remaining.toInt) :
  s.Next remaining.toInt (s.next remaining).1 (s.next remaining).2.toInt
  := by
  have hzero : (remaining ≤ 0) ↔ remaining.toInt ≤ 0 := Int64.le_iff_toInt_le
  have hpending := hs.pending
  simp only [pending, hstage] at hpending
  simp only [next, hstage, hzero]
  by_cases hle : remaining.toInt ≤ 0
  · rw [if_pos hle]
    apply Next.quiet
    · rfl
    · rfl
    · exact ⟨hs.inner, by simp, by simp, hs.delivered, hpending, fun hpos => by omega⟩
    · intro _
      exact Nat.zero_le _
  · rw [if_neg hle]
    apply Next.quiet
    · rfl
    · rfl
    · exact ⟨hs.inner, by simp, by simp, hs.delivered, hpending, by simp⟩
    · intro hle'
      exact absurd hle' hle

/-- A call gets the end of the upstream, an error or a batch. -/
theorem LimitedSource.fetching_spec {s : LimitedSource ρ} {remaining : Int64}
    (hstage : s.stage = .fetching) (hs : s.Sound remaining.toInt) :
  s.Next remaining.toInt (s.next remaining).1 (s.next remaining).2.toInt
  := by
  have hinnerle := hs.inner
  have hpending := hs.pending
  simp only [pending, hstage] at hpending
  cases hinner : s.inner with
  | nil =>
    rw [hinner] at hpending
    simp only [next, hstage, hinner]
    apply Next.quiet
    · rfl
    · rfl
    · refine ⟨Nat.zero_le _, by simp, by simp, hs.delivered, hpending, ?_⟩
      intro _ _
      rfl
    · intro _
      exact Nat.zero_le _
  | cons x inner =>
    rw [hinner] at hinnerle hpending
    cases x with
    | error e =>
      simp only [next, hstage, hinner]
      apply Next.quiet
      · rfl
      · rfl
      · exact ⟨hinnerle, by simp, by simp, hs.delivered, hpending, by simp⟩
      · intro _
        exact Nat.zero_le _
    | ok batch =>
      simp only [next, hstage, hinner]
      simp only [RecordBatchSource.largest] at hinnerle
      apply Next.quiet
      · rfl
      · rfl
      · refine ⟨by dsimp only; omega, ?_, by simp, hs.delivered, hpending, by simp⟩
        intro batch' h
        cases h
        dsimp only
        omega
      · intro _
        simp only [exposure, hstage]
        exact Nat.le_refl _

/-- A call of a source keeps to the budget. -/
theorem LimitedSource.next_spec {s : LimitedSource ρ} {remaining : Int64}
    (hs : s.Sound remaining.toInt) (hlargest : s.upstream.largest < 2 ^ 63)
    (hroom : -2 ^ 63 ≤ remaining.toInt - s.exposure) :
  s.Next remaining.toInt (s.next remaining).1 (s.next remaining).2.toInt
  := by
  cases hstage : s.stage with
  | idle => apply idle_spec hstage hs
  | fetching => apply fetching_spec hstage hs
  | reserving batch =>
    simp only [next, hstage]
    apply reserve_spec hstage hs hlargest hroom
  | ended =>
    simp only [next, hstage]
    exact Next.quiet rfl rfl hs fun _ => Nat.le_refl _
  | panicked => exact absurd hstage hs.safe

/-! ### All sources -/

/-- The sources have delivered what has been taken from the budget, and they cannot overdraw
it by more than their largest batches. -/
structure Limited.Inv (sources : List (RecordBatchSource ρ)) (limit : UInt64) (t : Limited ρ) :
    Prop where
  upstream : t.sources.map (·.upstream) = sources
  sound : ∀ s ∈ t.sources, s.Sound t.remaining.toInt
  total : (t.totalDelivered : Int) + max t.remaining.toInt 0 = min limit.toNat (2 ^ 63 - 1)
  overdraft : t.remaining.toInt ≤ 0 →
    (t.sources.map (·.exposure)).sum - t.remaining.toInt ≤
      (t.sources.map (·.upstream.largest)).sum

theorem LimitedSource.exposure_le (s : LimitedSource ρ) :
  s.exposure ≤ s.upstream.largest
  := by
  unfold exposure
  split
  · exact Nat.le_refl _
  · exact Nat.le_refl _
  · exact Nat.zero_le _

theorem sum_exposure_le (l : List (LimitedSource ρ)) :
  (l.map (·.exposure)).sum ≤ (l.map (·.upstream.largest)).sum
  := by
  induction l with
  | nil => exact Nat.le_refl _
  | cons s l ih =>
    have hs := s.exposure_le
    simp only [List.map_cons, List.sum_cons]
    omega

/-- At the start no row was delivered. -/
theorem Limited.Inv.init (sources : List (RecordBatchSource ρ)) (limit : UInt64) :
  Limited.Inv sources limit (limitSources sources limit)
  := by
  have hremaining : (limitSources sources limit).remaining.toInt = _ := toInt_limit limit
  constructor
  case upstream =>
    rw [limitSources, List.map_map]
    exact List.map_id _
  case sound =>
    intro s hs
    obtain ⟨inner, _, rfl⟩ := List.mem_map.mp hs
    apply LimitedSource.Sound.init
  case total =>
    have hnone : (limitSources sources limit).totalDelivered = 0 := by
      simp [totalDelivered, limitSources, Function.comp_def]
    rw [hnone, hremaining]
    omega
  case overdraft =>
    intro _
    have hnone : ((limitSources sources limit).sources.map (·.exposure)).sum = 0 := by
      simp [limitSources, Function.comp_def, LimitedSource.exposure]
    rw [hnone, hremaining]
    omega

/-- A call of one of the sources keeps the invariant. -/
theorem Limited.Inv.step {sources : List (RecordBatchSource ρ)} {limit : UInt64} {t t' : Limited ρ}
    (hmemory : (sources.map (·.largest)).sum < 2 ^ 63) (ht : t.Inv sources limit)
    (hstep : t.Step t') :
  t'.Inv sources limit
  := by
  obtain @⟨remaining, before, after, s⟩ := hstep
  obtain ⟨hupstream, hsound, htotal, hoverdraft⟩ := ht
  have hmem : s ∈ before ++ s :: after := List.mem_append_right _ List.mem_cons_self
  have hlargest : ((before ++ s :: after).map (·.upstream.largest)).sum < 2 ^ 63 := by
    rw [← hupstream, List.map_map] at hmemory
    exact hmemory
  have hs := s.exposure_le
  have hbefore := sum_exposure_le before
  have hafter := sum_exposure_le after
  simp only [totalDelivered, List.map_append, List.map_cons, List.sum_append, List.sum_cons] at *
  have hnext := LimitedSource.next_spec (hsound s hmem) (by omega) (by omega)
  constructor
  case upstream =>
    rw [List.map_append, List.map_cons, hnext.upstream]
    exact hupstream
  case sound =>
    intro s' hs'
    rcases List.mem_append.mp hs' with hs' | hs'
    · exact (hsound s' (List.mem_append_left _ hs')).mono hnext.le
    rcases List.mem_cons.mp hs' with rfl | hs'
    · exact hnext.sound
    · exact (hsound s' (List.mem_append_right _ (List.mem_cons_of_mem _ hs'))).mono hnext.le
  case total =>
    have hdelivered := hnext.delivered
    simp only [totalDelivered, List.map_append, List.map_cons, List.sum_append, List.sum_cons]
    omega
  case overdraft =>
    intro hle
    dsimp only at hle
    simp only [List.map_append, List.map_cons, List.sum_append, List.sum_cons, hnext.upstream]
    by_cases hpos : remaining.toInt ≤ 0
    · have hexposure := hnext.overdrawn hpos
      have hroom := hoverdraft hpos
      omega
    · have hexposure := hnext.spent (by omega) hle
      omega

theorem Limited.Reaches.inv {sources : List (RecordBatchSource ρ)} {limit : UInt64}
    {t : Limited ρ} (hmemory : (sources.map (·.largest)).sum < 2 ^ 63)
    (ht : (limitSources sources limit).Reaches t) :
  t.Inv sources limit
  := by
  induction ht with
  | refl => apply Inv.init
  | tail _ hstep ih => exact ih.step hmemory hstep

/-- When all sources have ended with budget to spare, all rows have been delivered. -/
theorem Limited.Inv.total_eq {sources : List (RecordBatchSource ρ)} {limit : UInt64}
    {t : Limited ρ} (h : t.Inv sources limit) (hended : ∀ s ∈ t.sources, s.stage = .ended) :
  t.totalDelivered =
    min (min limit.toNat (2 ^ 63 - 1)) (sources.map (·.rows.length)).sum
  := by
  have hrows : (sources.map (·.rows.length)).sum =
      (t.sources.map fun s => s.upstream.rows.length).sum := by
    rw [← h.upstream, List.map_map]
    rfl
  have htotal := h.total
  rw [hrows]
  by_cases hpos : 0 < t.remaining.toInt
  · have hall : t.totalDelivered = (t.sources.map fun s => s.upstream.rows.length).sum := by
      apply congrArg List.sum
      apply List.map_congr_left
      intro s hs
      have hs' := h.sound s hs
      rw [hs'.pending hpos, hs'.ended hpos (hended s hs), List.append_nil]
    omega
  · have hle : t.totalDelivered ≤ (t.sources.map fun s => s.upstream.rows.length).sum := by
      apply List.sum_le_sum
      intro s hs
      exact (h.sound s hs).delivered.length_le
    omega

/-! ### The end of the calls -/

/-- How many steps a source can still take, at most. -/
def LimitedSource.left (s : LimitedSource ρ) : Nat :=
  3 * s.inner.length +
    match s.stage with
    | .idle => 2
    | .fetching => 1
    | .reserving _ => 3
    | .ended => 0
    | .panicked => 0

/-- Each call of a source that has not ended brings it nearer to its end. -/
theorem LimitedSource.left_next {s : LimitedSource ρ} (remaining : Int64)
    (hended : s.stage ≠ .ended) (hsafe : s.stage ≠ .panicked) :
  (s.next remaining).1.left < s.left
  := by
  cases hstage : s.stage with
  | idle =>
    simp only [next, left, hstage]
    by_cases hle : remaining ≤ 0
    · simp only [if_pos hle]
      omega
    · simp only [if_neg hle]
      omega
  | fetching =>
    rcases hinner : s.inner with _ | ⟨x, inner⟩
    · simp [next, left, hstage, hinner]
    · cases x with
      | error e =>
        simp only [next, left, hstage, hinner, List.length_cons]
        omega
      | ok batch =>
        simp only [next, left, hstage, hinner, List.length_cons]
        omega
  | reserving batch =>
    simp only [next, hstage]
    cases (takeFromBudget remaining batch).1 with
    | none =>
      simp only [taken, left, hstage]
      omega
    | some rows =>
      simp only [taken, left, hstage]
      omega
    | panicked =>
      simp only [taken, left, hstage]
      omega
  | ended => exact absurd hstage hended
  | panicked => exact absurd hstage hsafe

/-- Whatever has happened, the calls can go on until all sources have ended. -/
theorem Limited.Inv.exists_ended {sources : List (RecordBatchSource ρ)} {limit : UInt64}
    {t : Limited ρ} (hmemory : (sources.map (·.largest)).sum < 2 ^ 63)
    (ht : t.Inv sources limit) :
  ∃ t', t.Reaches t' ∧ ∀ s ∈ t'.sources, s.stage = .ended
  := by
  generalize hleft : (t.sources.map (·.left)).sum = n
  induction n using Nat.strong_induction_on generalizing t with
  | h n ih =>
    by_cases hended : ∀ s ∈ t.sources, s.stage = .ended
    · exact ⟨t, .refl, hended⟩
    push Not at hended
    obtain ⟨s, hs, hrunning⟩ := hended
    have hless := s.left_next t.remaining hrunning (ht.sound s hs).safe
    obtain ⟨remaining, l⟩ := t
    obtain ⟨before, after, rfl⟩ := List.append_of_mem hs
    have hstep : Limited.Step ⟨remaining, before ++ s :: after⟩
        ⟨(s.next remaining).2, before ++ (s.next remaining).1 :: after⟩ := .next
    simp only [List.map_append, List.map_cons, List.sum_append, List.sum_cons] at hleft
    obtain ⟨t', hreaches, hended⟩ := ih _ (by
      rw [← hleft]
      simp only [List.map_append, List.map_cons, List.sum_append, List.sum_cons]
      exact Nat.add_lt_add_left (Nat.add_lt_add_right hless _) _) (ht.step hmemory hstep) rfl
    exact ⟨t', hreaches.head hstep, hended⟩

/-- The budget is exact, in every order of the steps of the sources. -/
theorem limitSources_exact {sources : List (RecordBatchSource ρ)} {limit : UInt64} {t : Limited ρ}
    (hmemory : (sources.map (·.largest)).sum < 2 ^ 63)
    (ht : (limitSources sources limit).Reaches t) :
  (∀ s ∈ t.sources, s.stage ≠ .panicked) ∧
    List.Forall₂ (fun s source => s.delivered <+: source.rows) t.sources sources ∧
    ((∀ s ∈ t.sources, s.stage = .ended) → t.totalDelivered =
      min (min limit.toNat (2 ^ 63 - 1)) (sources.map (·.rows.length)).sum)
  := by
  have h := ht.inv hmemory
  refine ⟨fun s hs => (h.sound s hs).safe, ?_, h.total_eq⟩
  rw [← h.upstream, List.forall₂_map_right_iff, List.forall₂_same]
  exact fun s hs => (h.sound s hs).delivered

/-- A budget of two rows, and two sources with three rows. -/
theorem limitSources_exact_two :
  ∃ t : Limited Nat, (limitSources [[.ok [1], .ok [2]], [.error "reset", .ok [3]]] 2).Reaches t ∧
    t.totalDelivered = 2
  := by
  have hmemory : (([[.ok [1], .ok [2]], [.error "reset", .ok [3]]] :
      List (RecordBatchSource Nat)).map (·.largest)).sum < 2 ^ 63 := by decide
  obtain ⟨t, hreaches, hended⟩ := (Limited.Inv.init _ 2).exists_ended hmemory
  exact ⟨t, hreaches, (limitSources_exact hmemory hreaches).2.2 hended⟩

/-- A limit above `i64::MAX` is cut down. -/
theorem clamped_run {batch : List Unit} (hbatch : batch.length = 2 ^ 62) :
  ∃ t, (limitSources [[.ok batch, .ok batch]] 0xFFFFFFFFFFFFFFFF).Reaches t ∧
    (∀ s ∈ t.sources, s.stage = .ended) ∧
    t.totalDelivered ≠ min (0xFFFFFFFFFFFFFFFF : UInt64).toNat
      (([[.ok batch, .ok batch]] : List (RecordBatchSource Unit)).map (·.rows.length)).sum
  := by
  have hmemory : (([[.ok batch, .ok batch]] : List (RecordBatchSource Unit)).map
      (·.largest)).sum < 2 ^ 63 := by
    simp [RecordBatchSource.largest, hbatch]
  obtain ⟨t, hreaches, hended⟩ := (Limited.Inv.init _ 0xFFFFFFFFFFFFFFFF).exists_ended hmemory
  refine ⟨t, hreaches, hended, ?_⟩
  rw [(hreaches.inv hmemory).total_eq hended]
  simp [RecordBatchSource.rows, hbatch]

/-- Three batches that overdraw the budget by more than `2 ^ 63` rows make it positive again. -/
theorem overdrawn_run {batch : List Unit} (hbatch : batch.length = 2 ^ 63 - 1) :
  ∃ t, (limitSources [[.ok batch], [.ok batch], [.ok batch]] 1).Reaches t ∧
    (∀ s ∈ t.sources, s.stage = .ended) ∧
    t.totalDelivered ≠ min (1 : UInt64).toNat
      (([[.ok batch], [.ok batch], [.ok batch]] : List (RecordBatchSource Unit)).map
        (·.rows.length)).sum
  := by
  let a := @LimitedSource.mk Unit [.ok batch]
  have hpoll : (a [.ok batch] .idle []).next 1 = (a [.ok batch] .fetching [], 1) := rfl
  have hfetch : (a [.ok batch] .fetching []).next 1 = (a [] (.reserving batch) [], 1) := rfl
  have hfirst : (a [] (.reserving batch) []).next 1 =
      (a [] .idle (batch.take 1), -9223372036854775806) := by
    simp only [a, LimitedSource.next, takeFromBudget, sliceBatch, hbatch]
    rfl
  have hsecond : (a [] (.reserving batch) []).next (-9223372036854775806) =
      (a [] .ended [], 3) := by
    simp only [a, LimitedSource.next, takeFromBudget, sliceBatch, hbatch]
    rfl
  have hthird : (a [] (.reserving batch) []).next 3 =
      (a [] .idle (batch.take 3), -9223372036854775804) := by
    simp only [a, LimitedSource.next, takeFromBudget, sliceBatch, hbatch]
    rfl
  have hend : ∀ rows, (a [] .idle rows).next (-9223372036854775804) =
      (a [] .ended rows, -9223372036854775804) := fun _ => rfl
  refine ⟨⟨-9223372036854775804, [a [] .ended (batch.take 1), a [] .ended [],
    a [] .ended (batch.take 3)]⟩, ?_, by simp [a], ?_⟩
  · apply Relation.ReflTransGen.head (.of_next [] [_, _] hpoll)
    apply Relation.ReflTransGen.head (.of_next [_] [_] hpoll)
    apply Relation.ReflTransGen.head (.of_next [_, _] [] hpoll)
    apply Relation.ReflTransGen.head (.of_next [] [_, _] hfetch)
    apply Relation.ReflTransGen.head (.of_next [_] [_] hfetch)
    apply Relation.ReflTransGen.head (.of_next [_, _] [] hfetch)
    apply Relation.ReflTransGen.head (.of_next [] [_, _] hfirst)
    apply Relation.ReflTransGen.head (.of_next [_] [_] hsecond)
    apply Relation.ReflTransGen.head (.of_next [_, _] [] hthird)
    apply Relation.ReflTransGen.head (.of_next [] [_, _] (hend _))
    exact .single (.of_next [_, _] [] (hend _))
  · simp [Limited.totalDelivered, RecordBatchSource.rows, a, hbatch]

/-- The limit is missed above `i64::MAX`, and when the batches in memory are too large. -/
theorem limitSources_not_exact :
  (∃ t, (limitSources [[.ok (.replicate (2 ^ 62) ()), .ok (.replicate (2 ^ 62) ())]]
      0xFFFFFFFFFFFFFFFF).Reaches t ∧
    (∀ s ∈ t.sources, s.stage = .ended) ∧
    t.totalDelivered ≠ min (0xFFFFFFFFFFFFFFFF : UInt64).toNat
      (([[.ok (.replicate (2 ^ 62) ()), .ok (.replicate (2 ^ 62) ())]] :
        List (RecordBatchSource Unit)).map (·.rows.length)).sum) ∧
  ∃ t, (limitSources [[.ok (.replicate (2 ^ 63 - 1) ())], [.ok (.replicate (2 ^ 63 - 1) ())],
      [.ok (.replicate (2 ^ 63 - 1) ())]] 1).Reaches t ∧
    (∀ s ∈ t.sources, s.stage = .ended) ∧
    t.totalDelivered ≠ min (1 : UInt64).toNat
      (([[.ok (.replicate (2 ^ 63 - 1) ())], [.ok (.replicate (2 ^ 63 - 1) ())],
        [.ok (.replicate (2 ^ 63 - 1) ())]] : List (RecordBatchSource Unit)).map
          (·.rows.length)).sum
  :=
  ⟨clamped_run List.length_replicate, overdrawn_run List.length_replicate⟩

end Loader
