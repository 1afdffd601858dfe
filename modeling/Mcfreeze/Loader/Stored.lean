import Mcfreeze.Loader.Conserved
import Mcfreeze.Loader.Load

/-!
# What scatter leaves in the files

The files of a partition go along with its writer: they are open while the writer takes
records, and closed when it has finished.  Together with the conservation of records this
tells what a directory holds at every point of the scatter phase, and so wherever the
phase is killed: every partition is torn, or closed with all the pairs that were handed
over for it, unless a writer has failed; then its partition is torn and has records.
-/

open Format Crash

namespace Loader

/-! ### The files of one partition -/

/-- The pairs of some records. -/
def pairsIn (rs : List Record) : List Pair :=
  rs.map fun r => (r.key, r.value)

section

variable {σ τ App : Type} {F : FormatBuilder σ τ App} (spec : AppenderSpec F)

/-- What the files of a partition hold, in each state of its writer. -/
def Writer.Holds (w : Writer τ App) (t : τ) : Prop :=
  match w.state with
  | .receiving a => spec.opened (pairsIn w.log) a t
  | .appending task r _ =>
    wp (.none τ) (spec.torn (pairsIn (w.log ++ [r]))) (spec.opened (pairsIn (w.log ++ [r]))) task t
  | .finishing task =>
    wp (.none τ) (fun t' => spec.torn (pairsIn w.log) t' ∨ spec.closed (pairsIn w.log) t')
      (fun _ => spec.closed (pairsIn w.log)) task t
  | .ended (.ok _) => spec.closed (pairsIn w.log) t
  | .ended (.error _) => (∃ rs, (∀ r ∈ rs, r ∈ w.log ++ w.lost) ∧ spec.torn (pairsIn rs) t)
      ∨ w.lost = [] ∧ spec.closed (pairsIn w.log) t

variable {spec}

/-- A writer that begins a batch holds what it held. -/
theorem holds_beginBatch {a : App} {batch : PartitionBatch} {n b : Nat} {log lost : List Record} {t : τ}
    (hfp : ∀ r ∈ batch, r.fp = fingerprint F.hash r.key) (h : spec.opened (pairsIn log) a t) :
  (⟨beginBatch F a batch, n, b, log, lost⟩ : Writer τ App).Holds spec t
  := by
  cases batch with
  | nil => apply h
  | cons r rest =>
    have happend := spec.append (r.key, r.value) h
    dsimp only at happend
    rw [← hfp r List.mem_cons_self] at happend
    show wp _ (spec.torn (pairsIn (log ++ [r]))) (spec.opened (pairsIn (log ++ [r]))) _ t
    rw [pairsIn, List.map_append]
    apply happend

/-- A step of a writer keeps its files. -/
theorem Writer.Holds.step {closed : Prop} {w w' : Writer τ App} {queue queue' : List PartitionBatch}
    {t t' : τ} (h : w.Holds spec t) (hok : w.Ok)
    (hfp : ∀ r ∈ arrived w queue, r.fp = fingerprint F.hash r.key)
    (hstep : Writer.Step F closed w queue t w' queue' t') :
  w'.Holds spec t'
  := by
  cases hstep with
  | receive =>
    apply holds_beginBatch _ h
    intro r hr
    apply hfp
    simp [arrived, hr]
  | close _ => apply spec.finish h
  | append hop => apply wp_step (Q := spec.opened _) h hop
  | appended =>
    apply holds_beginBatch _ h.2
    intro r hr
    apply hfp
    simp [arrived, Writer.inHand, hr]
  | @appendFails e r rest =>
    left
    refine ⟨_, ?_, h⟩
    intro r' hr'
    dsimp only
    rcases List.mem_append.mp hr' with hr' | hr'
    · apply List.mem_append_left _ hr'
    · rw [List.mem_singleton.mp hr']
      apply List.mem_append_right _ List.mem_cons_self
  | finish hop => apply wp_step h hop
  | finished => apply h.2
  | finishFails =>
    rcases h with htorn | hclosed
    · left
      exact ⟨_, fun r hr => List.mem_append_left _ hr, htorn⟩
    · right
      refine ⟨?_, hclosed⟩
      by_contra hne
      obtain ⟨e, he⟩ := hok.lost hne
      simp at he

/-- The files are torn, or closed with what the writer has appended; then nothing was lost
and the channel is closed and empty. -/
theorem Writer.Holds.torn_or_closed {closed : Prop} {w : Writer τ App} {queue : List PartitionBatch}
    {t : τ} (h : w.Holds spec t) (hok : w.Ok) (hsettled : w.Settled closed queue) :
  (∃ rs, (∀ r ∈ rs, r ∈ arrived w queue ++ w.lost) ∧ spec.torn (pairsIn rs) t)
    ∨ spec.closed (pairsIn w.log) t ∧ w.lost = [] ∧ closed ∧ arrived w queue = w.log
  := by
  obtain ⟨state, n, b, log, lost⟩ := w
  have hlog : ∀ r ∈ log, r ∈ arrived (⟨state, n, b, log, lost⟩ : Writer τ App) queue ++ lost := by
    intro r hr
    apply List.mem_append_left
    apply List.mem_append_left _ hr
  have hnone : (∀ e, state ≠ .ended (.error e)) → lost = [] := by
    intro hstate
    by_contra hne
    obtain ⟨e, he⟩ := hok.lost hne
    apply hstate e he
  cases state with
  | receiving a =>
    left
    exact ⟨log, hlog, spec.torn_of_opened h⟩
  | appending task r rest =>
    left
    refine ⟨log ++ [r], ?_, wp_inv h⟩
    intro r' hr'
    rcases List.mem_append.mp hr' with hr' | hr'
    · apply hlog r' hr'
    · rw [List.mem_singleton.mp hr']
      simp [arrived, Writer.inHand]
  | finishing task =>
    obtain ⟨hclosed, rfl⟩ := hsettled
    rcases wp_inv h with htorn | hfiles
    · left
      exact ⟨log, hlog, htorn⟩
    · right
      refine ⟨hfiles, hnone (by simp), hclosed, ?_⟩
      simp [arrived, Writer.inHand]
  | ended r =>
    have hend : lost = [] → closed ∧ arrived (⟨.ended r, n, b, log, lost⟩ : Writer τ App) queue = log := by
      intro hlost
      obtain ⟨hclosed, rfl⟩ := hsettled.resolve_left fun hne => hne hlost
      refine ⟨hclosed, ?_⟩
      simp [arrived, Writer.inHand]
    cases r with
    | ok st =>
      right
      have hlost := hnone (by simp)
      exact ⟨h, hlost, hend hlost⟩
    | error e =>
      rcases h with ⟨rs, hrs, htorn⟩ | ⟨hlost, hfiles⟩
      · left
        refine ⟨rs, ?_, htorn⟩
        intro r hr
        rcases List.mem_append.mp (hrs r hr) with hr | hr
        · apply hlog r hr
        · apply List.mem_append_right _ hr
      · right
        exact ⟨hfiles, hlost, hend hlost⟩

end

/-! ### The directory -/

/-- The pairs that the sources hand over. -/
def handedPairs (cfg : Config) (sources : List Source) : List Pair :=
  sources.flatMap (Source.handed cfg.maxValueBytes)

section

variable {σ τ App : Type} {F : FormatBuilder σ τ App} (spec : AppenderSpec F)

/-- The partition is torn, and what was written to it are pairs that belong to it. -/
def TornFor (kvs : List Pair) (p : Nat) (s : σ) : Prop :=
  ∃ l, (∀ kv ∈ l, kv ∈ pairsOf F.hash F.layout kvs p) ∧ spec.torn l (F.part p s)

/-- The partition is closed with its pairs, in some order. -/
def ClosedFor (kvs : List Pair) (p : Nat) (s : σ) : Prop :=
  ∃ l : List Pair, l.Perm (pairsOf F.hash F.layout kvs p) ∧ spec.closed l (F.part p s)

/-- Scatter is under way: every partition is torn or closed, and either a partition that
has pairs is torn, or the closed ones have their pairs. -/
structure Midway (kvs : List Pair) (s : σ) : Prop where
  parts : ∀ p < F.n, TornFor spec kvs p s ∨ ∃ l, spec.closed l (F.part p s)
  whole : (∃ p < F.n, pairsOf F.hash F.layout kvs p ≠ [] ∧ TornFor spec kvs p s)
    ∨ ∀ p < F.n, TornFor spec kvs p s ∨ ClosedFor spec kvs p s

/-- Scatter is complete: every partition is closed with its pairs. -/
def AllClosed (kvs : List Pair) (s : σ) : Prop :=
  ∀ p < F.n, ClosedFor spec kvs p s

/-- What is known of the phase and the store together. -/
structure Stored (cfg : Config) (sources : List Source) (c : Scatter σ τ App) (s : σ) : Prop where
  builder : c.builder = F
  config : c.config = cfg
  nSources : c.nSources = sources.length
  inv : c.Inv (Scatter.sourceOf sources) s
  parts : ∀ p < F.n, (c.writers p).Holds spec (F.part p s)
  unmarked : (∀ st, c.main ≠ .ended (.ok st)) → F.root.scatterDone s = none

variable {spec} {cfg : Config} {sources : List Source} {c c' : Scatter σ τ App} {s s' : σ}

theorem stored_start {appenders : Nat → App} (h : ∀ p < F.n, spec.opened [] (appenders p) (F.part p s))
    (hnone : F.root.scatterDone s = none) :
  Stored spec cfg sources (Scatter.start F cfg sources appenders) s
  :=
  ⟨rfl, rfl, rfl, Scatter.inv_start F cfg sources appenders s, h, fun _ => hnone⟩

theorem Scatter.MainStep.part {main main' : Main} (hstep : MainStep c main s main' s') (p : Nat) :
  c.builder.part p s' = c.builder.part p s
  := by
  cases hstep with
  | publish => apply c.builder.root.get_set
  | _ => rfl

/-- The main task leaves no sentinel unless it ends well. -/
theorem Scatter.MainStep.unmarked {main main' : Main} (hstep : MainStep c main s main' s') :
  (∀ st, main ≠ .ended (.ok st)) ∧ ((∀ st, main' ≠ .ended (.ok st)) → s' = s)
  := by
  cases hstep with
  | publish =>
    refine ⟨by simp, ?_⟩
    intro h
    exact absurd rfl (h _)
  | _ => exact ⟨by simp, fun _ => rfl⟩

/-- A step changes a partition or writes the sentinel, if anything. -/
theorem Scatter.Step.keeps {G : σ → Prop} (hstep : Scatter.Step c s c' s')
    (hG : ∀ k t s, G s → G (c.builder.root.parts.put k t s))
    (hG' : ∀ done s, G s → G (c.builder.root.setScatterDone done s)) (h : G s) :
  G s'
  := by
  cases hstep with
  | produce => apply h
  | write => apply hG _ _ _ h
  | await hmain =>
    generalize c.main = main at hmain
    cases hmain with
    | publish => apply hG' _ _ h
    | _ => apply h

/-- Every step keeps it. -/
theorem Stored.step (h : Stored spec cfg sources c s) (hstep : Scatter.Step c s c' s') :
  Stored spec cfg sources c' s'
  := by
  obtain ⟨builder, config, nSources, producers, channels, writers, main⟩ := c
  obtain ⟨hbuilder, hconfig, hnSources, hinv, hparts, hunmarked⟩ := h
  obtain rfl : builder = F := hbuilder
  have hinv' := hinv.step hstep
  cases hstep with
  | produce => exact ⟨rfl, hconfig, hnSources, hinv', hparts, hunmarked⟩
  | @write p writer queue t hp hstep =>
    refine ⟨rfl, hconfig, hnSources, hinv', ?_, ?_⟩
    · intro q hq
      rw [builder.part_put]
      dsimp only
      by_cases hqp : q = p
      · subst hqp
        rw [if_pos rfl, Function.update_self]
        apply (hparts q hq).step (hinv.writers q hq) _ hstep
        intro r hr
        obtain ⟨i, -, hr⟩ := hinv.genuine q hq r (List.mem_append_left _ hr)
        apply (mem_routed hr).2.1
      · rw [if_neg hqp, Function.update_of_ne hqp]
        apply hparts q hq
    · intro hmain
      rw [builder.root.scatterDone_put]
      apply hunmarked hmain
  | await hstep =>
    refine ⟨rfl, hconfig, hnSources, hinv', ?_, ?_⟩
    · intro p hp
      have hpart : builder.part p s' = builder.part p s := hstep.part p
      rw [hpart]
      apply hparts p hp
    · intro hmain
      obtain ⟨hbefore, hsame⟩ := hstep.unmarked
      rw [hsame hmain]
      apply hunmarked hbefore

/-! ### What has been appended -/

/-- A source that hands over everything that the given one does. -/
def Source.cut (cap : Nat) (source : Source) : Source :=
  [.ok (source.handed cap)]

theorem Source.pairs_cut (cap : Nat) (source : Source) :
  (source.cut cap).pairs = source.handed cap
  := by
  simp [Source.cut, Source.pairs]

theorem flatMap_cut (cap : Nat) (sources : List Source) :
  (sources.map (Source.cut cap)).flatMap Source.pairs = sources.flatMap (Source.handed cap)
  := by
  rw [List.flatMap_map]
  apply List.flatMap_congr
  intro source _
  apply Source.pairs_cut

theorem sourceOf_cut (cap : Nat) {sources : List Source} {i : Nat} (hi : i < sources.length) :
  Scatter.sourceOf (sources.map (Source.cut cap)) i = (Scatter.sourceOf sources i).cut cap
  := by
  simp [Scatter.sourceOf, hi]

/-- A log that has what each source hands over for the partition has the pairs that belong
to it. -/
theorem pairsIn_perm {p : Nat} {log : List Record} (horigin : ∀ r ∈ log, r.origin < sources.length)
    (h : ∀ i < sources.length, log.filter (fun r => r.origin = i)
      = routed F i p ((Scatter.sourceOf sources i).handed cfg.maxValueBytes)) :
  (pairsIn log).Perm (pairsOf F.hash F.layout (handedPairs cfg sources) p)
  := by
  rw [handedPairs, ← flatMap_cut, ← Scatter.map_filter_records F, pairsIn]
  apply List.Perm.map
  apply Scatter.log_perm
  · intro r hr
    rw [List.length_map]
    apply horigin r hr
  · intro i hi
    rw [List.length_map] at hi
    rw [h i hi, sourceOf_cut _ hi, Source.pairs_cut]

/-- A record that is due is a pair of its partition. -/
theorem mem_pairsOf_of_due {p i : Nat} {r : Record} (hi : i < sources.length)
    (h : r ∈ routed F i p ((Scatter.sourceOf sources i).handed cfg.maxValueBytes)) :
  (r.key, r.value) ∈ pairsOf F.hash F.layout (handedPairs cfg sources) p
  := by
  obtain ⟨-, hfp, hp, hmem⟩ := mem_routed h
  rw [mem_pairsOf, ← hfp]
  refine ⟨?_, hp⟩
  rw [handedPairs, List.mem_flatMap]
  refine ⟨sources[i], List.getElem_mem hi, ?_⟩
  simpa [Scatter.sourceOf, hi] using hmem

/-- Wherever the phase is, each partition is torn or closed. -/
theorem Stored.midway (h : Stored spec cfg sources c s) :
  Midway spec (handedPairs cfg sources) s
  := by
  obtain ⟨builder, config, nSources, producers, channels, writers, main⟩ := c
  obtain ⟨hbuilder, hconfig, hnSources, hinv, hparts, -⟩ := h
  obtain rfl : builder = F := hbuilder
  obtain rfl : config = cfg := hconfig
  obtain rfl : nSources = sources.length := hnSources
  have hgenuine : ∀ p < builder.n, ∀ r ∈ arrived (writers p) (channels p) ++ (writers p).lost,
      r.origin < sources.length
        ∧ (r.key, r.value) ∈ pairsOf builder.hash builder.layout (handedPairs config sources) p := by
    intro p hp r hr
    obtain ⟨i, hi, hdue⟩ := hinv.genuine p hp r hr
    refine ⟨?_, mem_pairsOf_of_due hi hdue⟩
    rw [(mem_routed hdue).1]
    apply hi
  have htorn : ∀ p < builder.n,
      (∃ rs, (∀ r ∈ rs, r ∈ arrived (writers p) (channels p) ++ (writers p).lost)
        ∧ spec.torn (pairsIn rs) (builder.part p s)) →
      TornFor spec (handedPairs config sources) p s := by
    rintro p hp ⟨rs, hrs, htorn⟩
    refine ⟨pairsIn rs, ?_, htorn⟩
    intro kv hkv
    obtain ⟨r, hr, rfl⟩ := List.mem_map.mp hkv
    apply (hgenuine p hp r (hrs r hr)).2
  refine ⟨?_, ?_⟩
  · intro p hp
    rcases (hparts p hp).torn_or_closed (hinv.writers p hp) (hinv.settled p hp) with
      hrs | ⟨hclosed, -⟩
    · left
      apply htorn p hp hrs
    · right
      exact ⟨_, hclosed⟩
  rcases hinv.conserved with ⟨q, hq, hlost⟩ | hcons
  · left
    obtain ⟨r, hr⟩ := List.exists_mem_of_ne_nil _ hlost
    refine ⟨q, hq, ?_, ?_⟩
    · apply List.ne_nil_of_mem (hgenuine q hq r (List.mem_append_right _ hr)).2
    · apply htorn q hq
      apply ((hparts q hq).torn_or_closed (hinv.writers q hq) (hinv.settled q hq)).resolve_right
      rintro ⟨-, hnil, -⟩
      apply hlost hnil
  · right
    intro p hp
    rcases (hparts p hp).torn_or_closed (hinv.writers p hp) (hinv.settled p hp) with
      hrs | ⟨hclosed, -, hend, harrived⟩
    · left
      apply htorn p hp hrs
    · right
      refine ⟨_, pairsIn_perm ?_ ?_, hclosed⟩
      · intro r hr
        apply (hgenuine p hp r (List.mem_append_left _ (by rwa [harrived]))).1
      · intro i hi
        obtain ⟨r, hr⟩ := hend.2 i hi
        have hdue := hcons p hp i hi
        dsimp only at hdue hr
        rw [harrived, Producer.unsent, hr, List.append_nil] at hdue
        apply hdue

/-- When every writer has ended well, all partitions are closed with what was handed
over. -/
theorem Stored.allClosed (h : Stored spec cfg sources c s)
    (hended : ∀ p < F.n, ∃ st, (c.writers p).state = .ended (.ok st)) :
  AllClosed spec (handedPairs cfg sources) s
  := by
  obtain ⟨builder, config, nSources, producers, channels, writers, main⟩ := c
  obtain ⟨hbuilder, hconfig, hnSources, hinv, hparts, -⟩ := h
  obtain rfl : builder = F := hbuilder
  obtain rfl : config = cfg := hconfig
  obtain rfl : nSources = sources.length := hnSources
  intro p hp
  obtain ⟨st, hst⟩ := hended p hp
  have hclosed := hparts p hp
  rw [Writer.Holds, hst] at hclosed
  refine ⟨_, pairsIn_perm ?_ ?_, hclosed⟩
  · intro r hr
    obtain ⟨i, hi, hdue⟩ := hinv.genuine p hp r (List.mem_append_left _ (List.mem_append_left _ hr))
    rw [(mem_routed hdue).1]
    apply hi
  · intro i hi
    apply hinv.filter_log hended p hp i hi

/-- When the main task has ended well, scatter is complete and the sentinel is there. -/
theorem Stored.of_main_ok (h : Stored spec cfg sources c s) {st : ScatterStats}
    (hok : c.main = .ended (.ok st)) :
  AllClosed spec (handedPairs cfg sources) s
    ∧ handedPairs cfg sources = sources.flatMap Source.pairs
    ∧ ∃ done, F.root.scatterDone s = some done ∧ done.format = F.format
  := by
  obtain ⟨hended, hhanded, -, hdone, -⟩ := h.inv.of_main_ok hok
  rw [h.builder] at hended hdone
  rw [h.nSources, h.config] at hhanded
  refine ⟨h.allClosed hended, ?_, _, hdone, rfl⟩
  rw [handedPairs, ← Scatter.flatMap_sourceOf, ← Scatter.flatMap_sourceOf]
  apply List.flatMap_congr
  intro i hi
  apply hhanded i (List.mem_range.mp hi)

/-! ### The phase as a part of a run -/

/-- Scattering sources: `C p` is what the creation of an appender keeps of partition `p`,
and `G` is what does not depend on the partitions and the sentinel. -/
theorem wp_runTasks {S : Type} [Inhabited App] {P : Phases S σ} {I G : σ → Prop} {C : Nat → τ → Prop}
    (hG : ∀ k t s, G s → G (F.root.parts.put k t s)) (hG' : ∀ done s, G s → G (F.root.setScatterDone done s))
    (hcreating : ∀ s, G s → F.root.scatterDone s = none → (∀ p < F.n, C p (F.part p s)) → I s)
    (hscattering : ∀ c s, G s → Stored spec cfg sources c s → I s)
    (hcreate : ∀ p < F.n, ∀ t, C p t → wp (.none τ) (C p) (fun a t' => spec.opened [] a t') F.appender t)
    (h : G s) (hnone : F.root.scatterDone s = none) (hC : ∀ p < F.n, C p (F.part p s)) :
  wp (P.sum (Scatter.phases σ τ App)) I
    (fun c s' => G s' ∧ Stored spec cfg sources c s' ∧ c.Final) (runTasks F cfg sources) s
  := by
  apply wp_bind
  apply wp_mono (wp_createAppenders (G := fun s => G s ∧ F.root.scatterDone s = none) (C := C)
    _ (fun s hs => hcreating s hs.1 hs.2) hcreate ⟨h, hnone⟩ hC)
  · rintro appenders s₁ - ⟨⟨hG₁, hnone₁⟩, hlength, hopened⟩
    have hstart : Stored spec cfg sources
        (Scatter.start F cfg sources (appenders.getD · default)) s₁ := by
      apply stored_start _ hnone₁
      intro p hp
      rw [List.getD_eq_getElem?_getD, List.getElem?_eq_getElem (by rwa [hlength])]
      apply hopened p _ (List.getElem?_eq_getElem (by rwa [hlength]))
    apply wp_bind
    apply wp_await_inr (K := fun c s => G s ∧ Stored spec cfg sources c s) ⟨hG₁, hstart⟩
    · rintro c s ⟨hs, hstored⟩
      apply hscattering c s hs hstored
    · rintro c s c' s' ⟨hs, hstored⟩ hstep
      refine ⟨?_, hstored.step hstep⟩
      rw [← hstored.builder] at hG hG'
      apply hstep.keeps hG hG' hs
    · rintro c s ⟨hs, hstored⟩ hfinal
      exact ⟨hscattering c s hs hstored, hs, hstored, hfinal⟩
  · rintro k t s ⟨hs, hnone⟩
    refine ⟨hG k t s hs, ?_⟩
    rw [F.root.scatterDone_put]
    apply hnone

end

end Loader
