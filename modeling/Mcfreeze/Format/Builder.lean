import Mcfreeze.Format.Layout

/-!
# The seam between the loader and the formats

What the loader knows of a format (`builder.rs`): the appender of a partition, which
takes the records of the partition one by one, the probe that tells whether a partition
was scattered, and where the sentinel `scatter.done` is.

`AppenderSpec` is what a format promises about its appender, in terms of the files of the
partition.  Whoever drives appenders that keep the promise, one after the other or at the
same time, knows what the partitions hold in the end.
-/

open Crash

namespace Format

/-- What `scatter_probe` found for a partition. -/
structure ScatterProbe where
  nKeys : Nat
  dataBytes : Nat
  deriving DecidableEq, Repr

/-- The partition directories and the sentinel of the loader, in a root directory. -/
structure RootDir (σ τ : Type) where
  parts : Parts DirName σ τ
  scatterDone : σ → Option ScatterDone
  setScatterDone : ScatterDone → σ → σ
  scatterDone_set : ∀ done s, scatterDone (setScatterDone done s) = some done
  scatterDone_put : ∀ k t s, scatterDone (parts.put k t s) = scatterDone s
  get_set : ∀ k done s, parts.get k (setScatterDone done s) = parts.get k s

/-- A builder over root directories in `σ` and partition directories in `τ`, with
appenders in `App`. -/
structure FormatBuilder (σ τ App : Type) where
  format : FormatId
  layout : Layout
  hash : Hash
  root : RootDir σ τ
  appender : Prog τ Error Empty App
  append : App → Bytes → UInt64 → Bytes → Prog τ Error Empty App
  finish : App → Prog τ Error Empty Unit
  scatterProbe : Nat → σ → Except Error (Option ScatterProbe)

namespace FormatBuilder

variable {σ τ App S : Type} (F : FormatBuilder σ τ App)

/-- The number of partitions. -/
abbrev n : Nat := F.layout.nPartitions

/-- The directory of a partition. -/
def dirOf (p : Nat) : DirName :=
  partitionDir F.n p

/-- The partition directory of `p` in a root directory. -/
def part (p : Nat) (s : σ) : τ :=
  F.root.parts.get (F.dirOf p) s

/-- A program on the directory of partition `p`. -/
def onPart {α : Type} (p : Nat) (task : Prog τ Error Empty α) : Prog σ Error S α :=
  task.lift F.root.parts (F.dirOf p)

/-- The appenders of the partitions from `p` on, in order. -/
def createAppenders : List Nat → Prog σ Error S (List App)
  | [] => return []
  | p :: ps => do
    let a ← F.onPart p F.appender
    let appenders ← createAppenders ps
    return a :: appenders

/-- Append a pair to the appender of its partition. -/
def appendPair (appenders : List App) (kv : Pair) : Prog σ Error S (List App) :=
  let fp := fingerprint F.hash kv.1
  let p := F.layout.partitionOf fp
  match appenders[p]? with
  | none => .throw (.panic "index out of bounds")
  | some a => do
    let a ← F.onPart p (F.append a kv.1 fp kv.2)
    return appenders.set p a

/-- Finish the appenders of the partitions from `p` on. -/
def finishAppenders : Nat → List App → Prog σ Error S Unit
  | _, [] => return
  | p, a :: appenders => do
    F.onPart p (F.finish a)
    finishAppenders (p + 1) appenders

/-- Write pairs through the appenders of their partitions. -/
def writePairs (kvs : List Pair) : Prog σ Error S Unit := do
  let appenders ← F.createAppenders (List.range F.n)
  let appenders ← kvs.foldlM F.appendPair appenders
  F.finishAppenders 0 appenders

theorem part_put (p q : Nat) (t : τ) (s : σ) :
  F.part q (F.root.parts.put (F.dirOf p) t s) = if q = p then t else F.part q s
  := by
  apply get_put_partitionDir F.root.parts

end FormatBuilder

/-- What a format promises about its appender: the states of a partition directory while
an appender is open that has taken some pairs, while such an appender is at work, and when
it has finished. -/
structure AppenderSpec {σ τ App : Type} (F : FormatBuilder σ τ App) where
  opened : List Pair → App → τ → Prop
  torn : List Pair → τ → Prop
  closed : List Pair → τ → Prop
  torn_of_opened : ∀ {l a t}, opened l a t → torn l t
  append : ∀ {l a t} (kv : Pair), opened l a t →
    wp (.none τ) (torn (l ++ [kv])) (fun a' t' => opened (l ++ [kv]) a' t')
      (F.append a kv.1 (fingerprint F.hash kv.1) kv.2) t
  finish : ∀ {l a t}, opened l a t →
    wp (.none τ) (fun t' => torn l t' ∨ closed l t') (fun _ t' => closed l t') (F.finish a) t

section

variable {σ τ App S : Type} {F : FormatBuilder σ τ App} {P : Phases S σ} {G : σ → Prop}

/-- A program on one partition, which keeps it in `J`: what does not depend on partition
directories stays, and so do the other partitions. -/
theorem FormatBuilder.wp_onPart {α : Type} {I : σ → Prop} {J : τ → Prop} {Q : α → τ → Prop} {p : Nat}
    {task : Prog τ Error Empty α} {s : σ} (hG : ∀ k t s, G s → G (F.root.parts.put k t s))
    (hI : ∀ s', G s' → J (F.part p s') → (∀ q, q ≠ p → F.part q s' = F.part q s) → I s') (h : G s)
    (htask : wp (.none τ) J Q task (F.part p s)) :
  wp P I
    (fun a s' => G s' ∧ J (F.part p s') ∧ Q a (F.part p s') ∧ ∀ q, q ≠ p → F.part q s' = F.part q s)
    (F.onPart p task) s
  := by
  apply wp_lift (J := J) (R := Q)
    (G := fun s' => G s' ∧ ∀ q, q ≠ p → F.part q s' = F.part q s)
  · rintro s' ⟨hG', hother⟩ hJ
    apply hI s' hG' hJ hother
  · rintro t s' ⟨hG', hother⟩ _ _
    refine ⟨hG _ t s' hG', ?_⟩
    intro q hq
    rw [F.part_put, if_neg hq]
    apply hother q hq
  · rintro a s' ⟨hG', hother⟩ hJ hQ
    exact ⟨hG', hJ, hQ, hother⟩
  · exact ⟨h, fun q _ => rfl⟩
  · apply htask

variable (spec : AppenderSpec F)

/-- The appenders are open, and have taken the pairs of their partitions. -/
structure Opened (kvs : List Pair) (appenders : List App) (s : σ) : Prop where
  length : appenders.length = F.n
  opened : ∀ p a, appenders[p]? = some a →
    spec.opened (pairsOf F.hash F.layout kvs p) a (F.part p s)

variable {spec}

/-- Creating the appenders: `C p` is what every operation of an appender's creation keeps
of partition `p`. -/
theorem wp_createAppenders {I : σ → Prop} {C : Nat → τ → Prop}
    (hG : ∀ k t s, G s → G (F.root.parts.put k t s))
    (hI : ∀ s, G s → (∀ p < F.n, C p (F.part p s)) → I s)
    (hcreate : ∀ p < F.n, ∀ t, C p t → wp (.none τ) (C p) (fun a t' => spec.opened [] a t') F.appender t)
    {s : σ} (h : G s) (hC : ∀ p < F.n, C p (F.part p s)) :
  wp P I (fun appenders s' => G s' ∧ Opened spec [] appenders s')
    (F.createAppenders (List.range F.n)) s
  := by
  have hloop : ∀ (k : Nat) (ps : List Nat) (s : σ), ps = List.range' k (F.n - k) → k ≤ F.n → G s →
      (∀ p < F.n, C p (F.part p s)) →
      wp P I
        (fun appenders s' => G s' ∧ appenders.length = F.n - k
          ∧ (∀ q < k, F.part q s' = F.part q s)
          ∧ ∀ q a, appenders[q]? = some a → spec.opened [] a (F.part (k + q) s'))
        (F.createAppenders ps) s := by
    intro k ps
    induction ps generalizing k with
    | nil =>
      intro s hps hk hs hC
      have hlen := congrArg List.length hps
      simp only [List.length_nil, List.length_range'] at hlen
      refine ⟨hI s hs hC, hs, hlen, fun _ _ => rfl, ?_⟩
      intro q a hq
      simp at hq
    | cons p ps ih =>
      intro s hps hk hs hC
      obtain ⟨m, hm⟩ : ∃ m, F.n - k = m + 1 := by
        have hlen := congrArg List.length hps
        simp only [List.length_cons, List.length_range'] at hlen
        exact ⟨ps.length, hlen.symm⟩
      rw [hm, List.range'_succ] at hps
      obtain ⟨rfl, hps⟩ := List.cons.inj hps
      have hlt : p < F.n := by omega
      have hparts : ∀ s', C p (F.part p s') → (∀ q, q ≠ p → F.part q s' = F.part q s) →
          ∀ q < F.n, C q (F.part q s') := by
        intro s' hp hother q hq
        by_cases hqp : q = p
        · rw [hqp]
          apply hp
        · rw [hother q hqp]
          apply hC q hq
      apply wp_bind
      apply wp_mono (F.wp_onPart hG (fun s' hs' hp hother => hI s' hs' (hparts s' hp hother)) hs
        (hcreate p hlt _ (hC p hlt)))
      rintro a s₁ - ⟨hs₁, hp, hopen, hother⟩
      apply wp_bind
      apply wp_mono (ih (p + 1) s₁ (by rw [hps]; congr 1; omega) (by omega) hs₁ (hparts s₁ hp hother))
      rintro appenders s₂ hI₂ ⟨hs₂, hlen, hkeep, hall⟩
      refine ⟨hI₂, hs₂, ?_, ?_, ?_⟩
      · rw [List.length_cons, hlen]
        omega
      · intro q hq
        rw [hkeep q (by omega), hother q (by omega)]
      · intro q a' hq
        cases q with
        | zero =>
          obtain rfl : a = a' := by simpa using hq
          rw [Nat.add_zero, hkeep p (by omega)]
          apply hopen
        | succ q =>
          have hnext := hall q a' (by simpa using hq)
          rwa [Nat.add_right_comm] at hnext
  have hrange : List.range F.n = List.range' 0 (F.n - 0) := by
    rw [Nat.sub_zero, List.range_eq_range']
  apply wp_mono (hloop 0 _ s hrange (Nat.zero_le _) h hC)
  rintro appenders s' - ⟨hs', hlen, -, hall⟩
  refine ⟨hs', hlen, ?_⟩
  intro p a hp
  have hopen := hall p a hp
  rwa [Nat.zero_add] at hopen

/-- A pair goes to the appender of its partition. -/
theorem wp_appendPair {kvs : List Pair} {appenders : List App} (kv : Pair)
    (hG : ∀ k t s, G s → G (F.root.parts.put k t s)) {s : σ} (h : G s)
    (hopen : Opened spec kvs appenders s) :
  wp P (fun _ => True) (fun appenders' s' => G s' ∧ Opened spec (kvs ++ [kv]) appenders' s')
    (F.appendPair appenders kv) s
  := by
  rw [FormatBuilder.appendPair]
  split
  · apply wp_throw trivial
  · next a ha =>
    apply wp_bind
    apply wp_mono (F.wp_onPart hG (fun _ _ _ _ => trivial) h (spec.append kv (hopen.opened _ a ha)))
    rintro a' s' - ⟨hs', -, hopen', hother⟩
    refine ⟨trivial, hs', by rw [List.length_set, hopen.length], ?_⟩
    intro q b hq
    rw [pairsOf_append]
    by_cases hqp : F.layout.partitionOf (fingerprint F.hash kv.1) = q
    · subst hqp
      rw [List.getElem?_set_self (List.getElem?_eq_some_iff.mp ha).1] at hq
      obtain rfl := Option.some.inj hq
      rw [if_pos rfl]
      apply hopen'
    · rw [List.getElem?_set_ne hqp] at hq
      rw [if_neg hqp, List.append_nil, hother q (Ne.symm hqp)]
      apply hopen.opened q b hq

/-- All pairs go to the appenders of their partitions, in order. -/
theorem wp_appendPairs {pre : List Pair} {appenders : List App} (kvs : List Pair)
    (hG : ∀ k t s, G s → G (F.root.parts.put k t s)) {s : σ} (h : G s)
    (hopen : Opened spec pre appenders s) :
  wp P (fun _ => True) (fun appenders' s' => G s' ∧ Opened spec (pre ++ kvs) appenders' s')
    (kvs.foldlM F.appendPair appenders) s
  := by
  induction kvs generalizing pre appenders s with
  | nil =>
    rw [List.append_nil]
    exact ⟨trivial, h, hopen⟩
  | cons kv kvs ih =>
    rw [List.foldlM_cons]
    apply wp_bind
    apply wp_mono (wp_appendPair kv hG h hopen)
    rintro appenders' s' - ⟨hs', hopen'⟩
    have hnext := ih hs' hopen'
    rwa [List.append_assoc, List.singleton_append] at hnext

/-- Each partition is closed with its pairs when its appender is finished. -/
theorem wp_finishAppenders {kvs : List Pair} {appenders : List App}
    (hG : ∀ k t s, G s → G (F.root.parts.put k t s)) {s : σ} (h : G s)
    (hopen : Opened spec kvs appenders s) :
  wp P (fun _ => True)
    (fun _ s' => G s' ∧ ∀ p < F.n, spec.closed (pairsOf F.hash F.layout kvs p) (F.part p s'))
    (F.finishAppenders 0 appenders) s
  := by
  have hloop : ∀ (k : Nat) (as : List App) (s : σ), G s →
      (∀ q a, as[q]? = some a → spec.opened (pairsOf F.hash F.layout kvs (k + q)) a (F.part (k + q) s)) →
      wp P (fun _ => True)
        (fun _ s' => G s' ∧ (∀ q < k, F.part q s' = F.part q s)
          ∧ ∀ q < as.length, spec.closed (pairsOf F.hash F.layout kvs (k + q)) (F.part (k + q) s'))
        (F.finishAppenders k as) s := by
    intro k as
    induction as generalizing k with
    | nil =>
      intro s hs _
      refine ⟨trivial, hs, fun _ _ => rfl, ?_⟩
      intro q hq
      simp at hq
    | cons a as ih =>
      intro s hs hall
      have ha := hall 0 a rfl
      rw [Nat.add_zero] at ha
      apply wp_bind
      apply wp_mono (F.wp_onPart hG (fun _ _ _ _ => trivial) hs (spec.finish ha))
      rintro _ s₁ - ⟨hs₁, -, hclosed, hother⟩
      have hnext := ih (k + 1) s₁ hs₁ (by
        intro q b hq
        rw [hother _ (by omega), Nat.add_right_comm]
        apply hall (q + 1) b
        simpa using hq)
      apply wp_mono hnext
      rintro _ s₂ - ⟨hs₂, hkeep, hrest⟩
      refine ⟨hs₂, ?_, ?_⟩
      · intro q hq
        rw [hkeep q (by omega), hother q (by omega)]
      · intro q hq
        cases q with
        | zero =>
          rw [Nat.add_zero, hkeep k (by omega)]
          apply hclosed
        | succ q =>
          have hq := hrest q (by simpa using hq)
          rwa [Nat.add_right_comm] at hq
  apply wp_mono (hloop 0 appenders s h (by
    intro q a hq
    rw [Nat.zero_add]
    apply hopen.opened q a hq))
  rintro _ s' - ⟨hs', -, hall⟩
  refine ⟨hs', ?_⟩
  intro p hp
  have hclosed := hall p (by rwa [hopen.length])
  rwa [Nat.zero_add] at hclosed

/-- Writing pairs through the appenders leaves every partition closed with its pairs. -/
theorem wp_writePairs {C : Nat → τ → Prop} (spec : AppenderSpec F) (kvs : List Pair)
    (hG : ∀ k t s, G s → G (F.root.parts.put k t s))
    (hcreate : ∀ p < F.n, ∀ t, C p t → wp (.none τ) (C p) (fun a t' => spec.opened [] a t') F.appender t)
    {s : σ} (h : G s) (hC : ∀ p < F.n, C p (F.part p s)) :
  wp P (fun _ => True)
    (fun _ s' => G s' ∧ ∀ p < F.n, spec.closed (pairsOf F.hash F.layout kvs p) (F.part p s'))
    (F.writePairs kvs) s
  := by
  apply wp_bind
  apply wp_mono (wp_createAppenders hG (fun _ _ _ => trivial) hcreate h hC)
  rintro appenders s₁ - ⟨hs₁, hopen⟩
  apply wp_bind
  apply wp_mono (wp_appendPairs kvs hG hs₁ hopen)
  rintro appenders s₂ - ⟨hs₂, hopen⟩
  rw [List.nil_append] at hopen
  apply wp_finishAppenders hG hs₂ hopen

end

end Format
