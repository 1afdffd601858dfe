import Mcfreeze.V4.Builder

/-!
# Resuming a V4 build

The states a snapshot directory goes through after scatter: the spill files are complete;
`index.done` is being written; the index is built and `index.done` is there; the metadata
is written and the sentinels are removed.

Every run that does not start in the last state keeps the directory in one of these
states, wherever it is killed.  A run that does starts over with the spill files gone.

Before that, from the moment an appender is created, both files of its partition are there.
-/

open Format Crash Files

namespace V4

open V4Builder

/-! ### The states after scatter -/

/-- The values are there, and each spill file is complete or gone. -/
def Swept (H : Hash) (L : Load) (d : Dir) : Prop :=
  ∀ p < L.layout.nPartitions, (L.dir p d).data = some (encodeValues H L.seed (L.pairs p))
    ∧ ((L.dir p d).spill = none ∨ Spilled H L.seed (L.pairs p) (L.dir p d))

/-- The tables of all partitions are in `index.all`. -/
structure IndexBuilt (H : Hash) (L : Load) (tables : List (List Bucket)) (d : Dir) : Prop where
  tablesOf : TablesOf H L tables
  indexAll : d.indexAll = some (appendTables tables []).1
  indexLen : (appendTables tables []).1.length ≤ Files.maxFileLen
  swept : Swept H L d

/-- The index is built, and `index.done` is there. -/
structure Published (H : Hash) (L : Load) (before : Option (Doc Meta)) (tables : List (List Bucket))
    (done : IndexDone) (d : Dir) : Prop where
  built : IndexBuilt H L tables d
  indexDone : d.indexDone = some (.whole done)
  info : (⟨done.indexOffsets, done.indexNBuckets⟩ : UnifiedIndexInfo) = infoOf tables
  metaJson : d.metaJson = before ∨ d.metaJson = some .torn
    ∨ d.metaJson = some (.whole (metaOf L.seed (infoOf tables)))

/-- A run has completed. -/
structure Finished (H : Hash) (L : Load) (tables : List (List Bucket)) (d : Dir) : Prop where
  built : IndexBuilt H L tables d
  indexDone : d.indexDone = none
  metaJson : d.metaJson = some (.whole (metaOf L.seed (infoOf tables)))
  spills : ∀ p < L.layout.nPartitions, (L.dir p d).spill = none

/-- The states of a directory after scatter; `before` is the metadata of before. -/
inductive Phase (H : Hash) (L : Load) (before : Option (Doc Meta)) (d : Dir) : Prop where
  | scattered (h : Scattered H L d) (hindex : d.indexDone = none) (hmeta : d.metaJson = before)
  | torn (h : Scattered H L d) (hindex : d.indexDone = some .torn) (hmeta : d.metaJson = before)
  | published (tables : List (List Bucket)) (done : IndexDone) (h : Published H L before tables done d)
  | finished (tables : List (List Bucket)) (h : Finished H L tables d)

section

variable {S : Type} {R : Phases S Dir} {H : Hash} {L : Load} {b : V4Builder} {I : Dir → Prop}
  {d : Dir} {before : Option (Doc Meta)} {tables : List (List Bucket)} {done : IndexDone}

theorem Scattered.swept (h : Scattered H L d) :
  Swept H L d
  := by
  intro p hp
  exact ⟨(h p hp).data, .inr (h p hp)⟩

theorem Swept.hasData (h : Swept H L d) :
  HasData H L d
  := by
  intro p hp
  apply (h p hp).1

/-- The next run finds every partition scattered, or indexed. -/
theorem Swept.probe (h : Swept H L d) {p : Nat} (hp : p < L.layout.nPartitions)
    (hindex : (L.dir p d).spill = none → d.indexAll.isSome = true) :
  ∃ probe, scatterProbe d.indexAll.isSome (L.dir p d) = .ok (some probe)
  := by
  obtain ⟨hdata, hspill⟩ := h p hp
  rw [scatterProbe, hdata]
  rcases hspill with hnone | hspilled
  · rw [hnone, hindex hnone]
    exact ⟨_, rfl⟩
  · obtain ⟨-, entries, -, hbound, hspill⟩ := hspilled
    rw [hspill]
    dsimp only
    rw [open_spillHeader hbound]
    exact ⟨_, rfl⟩

/-- In every phase the partitions are probed as scattered. -/
theorem Phase.probe (h : Phase H L before d) {p : Nat} (hp : p < L.layout.nPartitions) :
  ∃ probe, scatterProbe d.indexAll.isSome (L.dir p d) = .ok (some probe)
  := by
  have hscattered : Scattered H L d →
      ∃ probe, scatterProbe d.indexAll.isSome (L.dir p d) = .ok (some probe) := by
    intro hs
    apply hs.swept.probe hp
    intro hnone
    obtain ⟨-, entries, -, -, hspill⟩ := hs p hp
    rw [hnone] at hspill
    simp at hspill
  have hbuilt : ∀ tables, IndexBuilt H L tables d →
      ∃ probe, scatterProbe d.indexAll.isSome (L.dir p d) = .ok (some probe) := by
    intro tables hbuilt
    apply hbuilt.swept.probe hp
    intro _
    rw [hbuilt.indexAll]
    rfl
  cases h with
  | scattered hs _ _ => apply hscattered hs
  | torn hs _ _ => apply hscattered hs
  | published tables done hpub => apply hbuilt tables hpub.built
  | finished tables hf => apply hbuilt tables hf.built

/-- The sentinel of scatter does not matter. -/
theorem Phase.setScatterDone (h : Phase H L before d) (done : Option ScatterDone) :
  Phase H L before { d with scatterDone := done }
  := by
  cases h with
  | scattered hs hindex hmeta => exact .scattered hs hindex hmeta
  | torn hs hindex hmeta => exact .torn hs hindex hmeta
  | published tables done' hpub =>
    obtain ⟨⟨ht, hindex, hlen, hs⟩, hdone, hinfo, hmeta⟩ := hpub
    exact .published tables done' ⟨⟨ht, hindex, hlen, hs⟩, hdone, hinfo, hmeta⟩
  | finished tables hf =>
    obtain ⟨⟨ht, hindex, hlen, hs⟩, hdone, hmeta, hspills⟩ := hf
    exact .finished tables ⟨⟨ht, hindex, hlen, hs⟩, hdone, hmeta, hspills⟩

/-! ### Building -/

/-- Building the tables of all partitions changes nothing. -/
theorem wp_buildTables (hL : L.Fits) (hb : b.layout = L.layout) (hI : I d) (h : Scattered H L d) :
  wp (phases R) I
    (fun results d' => d = d' ∧ List.Forall₂ (BuiltFor H L) (partitionDirs L.layout.nPartitions)
      (results.map Prod.fst))
    b.buildTables d
  := by
  have hkeys : ((partitionDirs L.layout.nPartitions).map fun name => (name, buildIndex)).map Prod.fst
      = partitionDirs L.layout.nPartitions := by
    rw [List.map_map]
    apply List.map_id
  apply wp_bind
  rw [hb]
  apply wp_await_tasks (L := partDirs) (G := fun d' => d = d') (J := fun name t => t = d.part name)
    (W := fun name r t => t = d.part name ∧ BuiltFor H L name r.1)
  · rw [hkeys]
    apply nodup_partitionDirs
  · intro t ht
    obtain ⟨name, hname, rfl⟩ := List.mem_map.mp ht
    apply wp_buildIndex_of_scattered hL h hname
  · rfl
  · rintro _ rfl _
    apply hI
  · rintro name _ t _ rfl _ rfl
    exact (partDirs.put_get name d).symm
  · rintro ts _ hts hfinal hsafe rfl
    apply wp_ofExcept hI
    intro results hres
    have hall := hsafe.results hfinal hres
    rw [hts, hkeys] at hall
    refine ⟨rfl, ?_⟩
    rw [List.forall₂_map_right_iff]
    apply hall.imp
    rintro name r ⟨-, hr⟩
    apply hr

/-- Deleting the spill files. -/
theorem wp_removeSpills_all (hb : b.layout = L.layout) {G : Dir → Prop}
    (hG : ∀ k t d, G d → G (partDirs.put k t d)) (hI : ∀ d, G d → Swept H L d → I d) (h : G d)
    (hs : Swept H L d) :
  wp (phases R) I
    (fun _ d' => G d' ∧ Swept H L d' ∧ ∀ p < L.layout.nPartitions, (L.dir p d').spill = none)
    b.removeSpills d
  := by
  rw [V4Builder.removeSpills, hb]
  have hloop := wp_forM (P := phases R) (I := I) (f := fun name => removeSpill.lift partDirs name)
    (R := fun rest d => (∀ name ∈ rest, name ∈ partitionDirs L.layout.nPartitions)
      ∧ (G d ∧ Swept H L d) ∧ ∀ p < L.layout.nPartitions,
        partitionDir L.layout.nPartitions p ∈ rest ∨ (L.dir p d).spill = none)
    (fun _ d hd => hI d hd.2.1.1 hd.2.1.2)
    (by
      rintro name rest d ⟨hnames, ⟨hG', hs⟩, hrest⟩
      obtain ⟨p, hp, rfl⟩ := exists_of_mem_partitionDirs (hnames name List.mem_cons_self)
      let J : PartDir → Prop := fun t => t.data = some (encodeValues H L.seed (L.pairs p))
        ∧ (t.spill = none ∨ Spilled H L.seed (L.pairs p) t)
      apply wp_lift (J := J) (R := fun _ t => t.spill = none)
        (G := fun d' => (G d' ∧ Swept H L d')
          ∧ ∀ q < L.layout.nPartitions, q ≠ p → L.dir q d' = L.dir q d)
      · intro d' hd' _
        apply hI d' hd'.1.1 hd'.1.2
      · rintro t d' ⟨⟨hGd, hsd⟩, hother⟩ _ ht
        refine ⟨⟨hG _ t d' hGd, ?_⟩, ?_⟩
        · intro q hq
          rw [Load.dir, part_put]
          split
          · next heq =>
            rw [heq]
            apply ht
          · apply hsd q hq
        · intro q hq hqp
          rw [Load.dir, part_put, if_neg hqp]
          apply hother q hq hqp
      · rintro _ d' ⟨hGd, hother⟩ _ hgone
        refine ⟨fun name h => hnames name (List.mem_cons_of_mem _ h), hGd, ?_⟩
        intro q hq
        by_cases hqp : q = p
        · right
          rw [hqp]
          apply hgone
        · rw [hother q hq hqp]
          rcases hrest q hq with hmem | hnone
          · left
            rcases List.mem_cons.mp hmem with heq | hmem
            · exact absurd (partitionDir_injective heq) hqp
            · apply hmem
          · right
            apply hnone
      · exact ⟨⟨hG', hs⟩, fun _ _ _ => rfl⟩
      · have hp' : J (L.dir p d) := hs p hp
        have hgone : J { L.dir p d with spill := none } := ⟨(hs p hp).1, .inl rfl⟩
        apply wp_remove (d := L.dir p d) hp' hgone rfl)
    _ _ ⟨fun name h => h, ⟨h, hs⟩, fun p hp =>
      .inl (List.mem_map_of_mem (List.mem_range.mpr hp))⟩
  apply wp_mono hloop
  rintro _ d' - ⟨-, ⟨hGd, hsd⟩, hall⟩
  refine ⟨hGd, hsd, ?_⟩
  intro p hp
  apply (hall p hp).resolve_left
  simp

/-- Deleting the spill files when the index is published. -/
theorem wp_removeSpills_published (hb : b.layout = L.layout) (h : Published H L before tables done d) :
  wp (phases R) (Phase H L before)
    (fun _ d' => Published H L before tables done d'
      ∧ ∀ p < L.layout.nPartitions, (L.dir p d').spill = none)
    b.removeSpills d
  := by
  have hpub : ∀ d' : Dir, d'.indexAll = d.indexAll ∧ d'.indexDone = d.indexDone ∧ d'.metaJson = d.metaJson →
      Swept H L d' → Published H L before tables done d' := by
    rintro d' ⟨hindex, hdone, hmeta⟩ hs
    refine ⟨⟨h.built.tablesOf, ?_, h.built.indexLen, hs⟩, ?_, h.info, ?_⟩
    · rw [hindex, h.built.indexAll]
    · rw [hdone, h.indexDone]
    · rw [hmeta]
      apply h.metaJson
  have hwp : wp (phases R) (Phase H L before) _ b.removeSpills d :=
    wp_removeSpills_all (H := H) hb
      (G := fun d' : Dir => d'.indexAll = d.indexAll ∧ d'.indexDone = d.indexDone ∧ d'.metaJson = d.metaJson)
      (fun _ _ _ h => h) (fun d' hd' hs => .published tables done (hpub d' hd' hs)) ⟨rfl, rfl, rfl⟩
      h.built.swept
  apply wp_mono hwp
  rintro _ d' - ⟨hd', hs, hspills⟩
  exact ⟨hpub d' hd' hs, hspills⟩

/-- A run may start: `index.done` is there, or all spill files are. -/
def Startable (n : Nat) (d : Dir) : Prop :=
  d.indexDone.isSome = true ∨ ∀ p < n, (d.part (partitionDir n p)).spill.isSome = true

/-- A run that has completed has removed both. -/
theorem Finished.not_startable (h : Finished H L tables d) :
  ¬ Startable L.layout.nPartitions d
  := by
  rintro (hindex | hspill)
  · rw [h.indexDone] at hindex
    simp at hindex
  · have hsome : (L.dir 0 d).spill.isSome = true := hspill 0 L.layout.pos
    rw [h.spills 0 L.layout.pos] at hsome
    simp at hsome

/-- Building the index, or taking over the one that is built. -/
theorem wp_build (hL : L.Fits) (hb : b.layout = L.layout) (h : Phase H L before d)
    (hstart : Startable L.layout.nPartitions d) :
  wp (phases R) (Phase H L before)
    (fun r d' => ∃ tables done, r.1 = infoOf tables ∧ Published H L before tables done d'
      ∧ ∀ p < L.layout.nPartitions, (L.dir p d').spill = none)
    b.build d
  := by
  apply wp_bind
  apply wp_read h
  cases h with
  | finished tables hf => exact absurd hstart hf.not_startable
  | torn hs hindex hmeta =>
    rw [hindex]
    apply wp_throw (.torn hs hindex hmeta)
  | published tables done hpub =>
    rw [hpub.indexDone]
    apply wp_bind
    apply wp_mono (wp_removeSpills_published hb hpub)
    rintro _ d' hd' ⟨hpub', hspills⟩
    exact ⟨hd', tables, done, hpub'.info, hpub', hspills⟩
  | scattered hs hindex hmeta =>
    rw [hindex]
    have hphase : Phase H L before d := .scattered hs hindex hmeta
    apply wp_bind
    apply wp_mono (wp_buildTables hL hb hphase hs)
    rintro results _ - ⟨rfl, hresults⟩
    have ht : TablesOf H L (results.map Prod.fst) := tablesOf_of_builtFor hresults
    apply wp_bind
    apply wp_mono (wp_writeUnifiedIndex hphase fun c => .scattered hs hindex hmeta)
    rintro _ _ hwritten ⟨rfl, rfl, hlen⟩
    apply wp_bind
    apply wp_read hwritten
    have htorn : Phase H L before
        { d with indexAll := some (appendTables (results.map Prod.fst) []).1, indexDone := some .torn } :=
      .torn hs rfl hmeta
    have hpub : Published H L before (results.map Prod.fst)
        (indexDoneOf (results.map Prod.snd) (infoOf (results.map Prod.fst))
          (appendTables (results.map Prod.fst) []).1.length)
        { d with
          indexAll := some (appendTables (results.map Prod.fst) []).1
          indexDone := some (.whole (indexDoneOf (results.map Prod.snd)
            (infoOf (results.map Prod.fst)) (appendTables (results.map Prod.fst) []).1.length)) } :=
      ⟨⟨ht, rfl, hlen, hs.swept⟩, rfl, rfl, .inl hmeta⟩
    apply wp_bind
    apply wp_bind
    apply wp_modify hwritten htorn
    apply wp_modify htorn (.published _ _ hpub)
    apply wp_bind
    apply wp_mono (wp_removeSpills_published hb hpub)
    rintro _ d' hd' ⟨hpub', hspills⟩
    exact ⟨hd', _, _, rfl, hpub', hspills⟩

/-- A whole run, from every state but the last. -/
theorem wp_finalizeLoad (hL : L.Fits) (hb : b.layout = L.layout) (hseed : b.verifySeed = L.seed)
    (h : Phase H L before d) (hstart : Startable L.layout.nPartitions d) :
  wp (phases R) (Phase H L before) (fun _ d' => ∃ tables, Finished H L tables d') b.finalizeLoad d
  := by
  apply wp_bind
  apply wp_mono (wp_build hL hb h hstart)
  rintro ⟨info, nKeys⟩ d hd ⟨tables, done, hinfo, hpub, hspills⟩
  dsimp only at hinfo
  subst hinfo
  obtain ⟨⟨ht, hindex, hlen, hs⟩, hdone, hinfo, -⟩ := hpub
  have h₁ : Published H L before tables done { d with metaJson := some .torn } :=
    ⟨⟨ht, hindex, hlen, hs⟩, hdone, hinfo, .inr (.inl rfl)⟩
  have h₂ : Published H L before tables done
      { d with metaJson := some (.whole (metaOf b.verifySeed (infoOf tables))) } := by
    refine ⟨⟨ht, hindex, hlen, hs⟩, hdone, hinfo, .inr (.inr ?_)⟩
    rw [hseed]
  have h₃ : Published H L before tables done
      { d with metaJson := some (.whole (metaOf b.verifySeed (infoOf tables))), scatterDone := none } :=
    ⟨⟨ht, hindex, hlen, hs⟩, hdone, hinfo, h₂.metaJson⟩
  have h₄ : Finished H L tables
      { d with
        metaJson := some (.whole (metaOf b.verifySeed (infoOf tables)))
        scatterDone := none
        indexDone := none } := by
    refine ⟨⟨ht, hindex, hlen, hs⟩, rfl, ?_, hspills⟩
    rw [hseed]
  apply wp_bind
  apply wp_bind
  apply wp_modify hd (.published tables done h₁)
  apply wp_modify (.published tables done h₁) (.published tables done h₂)
  apply wp_bind
  apply wp_modify (.published tables done h₂) (.published tables done h₃)
  apply wp_bind
  apply wp_modify (.published tables done h₃) (.finished tables h₄)
  exact ⟨.finished tables h₄, tables, h₄⟩

/-! ### What the metadata describes -/

theorem IndexBuilt.complete (h : IndexBuilt H L tables d) (hcount : L.layout.nPartitions < 2 ^ 32)
    (hmeta : d.metaJson = some (.whole (metaOf L.seed (infoOf tables)))) :
  Complete H L.layout L.seed L.pairs d
  :=
  ⟨_, _, hmeta, h.tablesOf.describes hcount h.swept.hasData h.indexAll h.indexLen⟩

/-- Metadata that parses is only ever found over the index that it describes. -/
theorem Phase.complete (h : Phase H L none d) (hcount : L.layout.nPartitions < 2 ^ 32) {m : Meta}
    (hm : d.metaJson = some (.whole m)) :
  Complete H L.layout L.seed L.pairs d
  := by
  cases h with
  | scattered _ _ hmeta =>
    rw [hmeta] at hm
    simp at hm
  | torn _ _ hmeta =>
    rw [hmeta] at hm
    simp at hm
  | published tables done hpub =>
    rcases hpub.metaJson with hnone | htorn | hwhole
    · rw [hnone] at hm
      simp at hm
    · rw [htorn] at hm
      simp at hm
    · apply hpub.built.complete hcount hwhole
  | finished tables hf => apply hf.built.complete hcount hf.metaJson

end

/-- Scatter has completed for some pairs: each partition has its values and its spill file,
in some order of its pairs, and `scatter.done` is there. -/
def ScatterCompleted (H : Hash) (layout : Layout) (seed : UInt64) (kvs : List Pair) (d : Dir) : Prop :=
  d.indexDone = none ∧ d.metaJson = none
    ∧ (∃ done, d.scatterDone = some done ∧ done.format = .v4 ∧ done.nPartitions = layout.nPartitions)
    ∧ ∃ pairs : Nat → List Pair,
      (∀ p < layout.nPartitions, (pairs p).Perm (pairsOf H layout kvs p))
        ∧ Scattered H ⟨layout, seed, pairs⟩ d

/-! ### Appenders keep their files -/

/-- Both files of the partition are there. -/
def Present (t : PartDir) : Prop :=
  t.data.isSome = true ∧ t.spill.isSome = true

section

variable {H : Hash} {seed : UInt64} {l : List Pair} {w : PartitionWriter} {t : PartDir}

theorem Present.setFile (h : Present t) (f : PartFile) (c : Bytes) :
  Present (setFile t f (some c))
  := by
  cases f with
  | data => exact ⟨rfl, h.2⟩
  | spill => exact ⟨h.1, rfl⟩

theorem Writing.present (h : Writing H seed l w t) :
  Present t
  := by
  obtain ⟨⟨c, hdata, -⟩, ⟨c', -, hspill, -⟩, -, -⟩ := h
  constructor
  · rw [hdata]
    rfl
  · rw [hspill]
    rfl

theorem Spilled.present (h : Spilled H seed l t) :
  Present t
  := by
  obtain ⟨hdata, entries, -, -, hspill⟩ := h
  constructor
  · rw [hdata]
    rfl
  · rw [hspill]
    rfl

theorem wp_bufWrite_present (f : PartFile) (pending bytes : Bytes) (h : Present t) :
  wp (.none _) Present (fun _ => Present) (bufWrite f pending bytes : Task Bytes) t
  := by
  apply wp_bufWrite h
  intro b flushed rest _ _
  exact ⟨h.setFile f _, h.setFile f _⟩

theorem wp_append_present (f : PartFile) (bytes : Bytes) (h : Present t) :
  wp (.none _) Present (fun _ => Present) (append f bytes : Task Unit) t
  := by
  apply wp_append h
  intro b _ _
  exact ⟨h.setFile f _, h.setFile f _⟩

/-- A write keeps both files. -/
theorem wp_write_present (key : Bytes) (fp : UInt64) (value : Bytes) (h : Present t) :
  wp (.none _) Present (fun _ => Present) (w.write H seed key fp value) t
  := by
  apply wp_bind
  apply wp_mono (wp_bufWrite_present _ _ _ h)
  intro dataPending t₁ _ h₁
  apply wp_bind
  apply wp_ofExcept h₁
  intro bucket _
  apply wp_bind
  apply wp_mono (wp_bufWrite_present _ _ _ h₁)
  intro spillPending t₂ _ h₂
  exact ⟨h₂, h₂⟩

/-- The end of a writer keeps both files. -/
theorem wp_finishData_present (h : Present t) :
  wp (.none _) Present (fun _ => Present) w.finishData t
  := by
  apply wp_bind
  apply wp_mono (wp_append_present _ _ h)
  intro _ t₁ _ h₁
  apply wp_bind
  apply wp_mono (wp_append_present _ _ h₁)
  intro _ t₂ _ h₂
  apply wp_atomic h₂
  intro _ t₃ ht₃
  split at ht₃
  · simp at ht₃
  · next spill _ =>
    obtain ⟨-, rfl⟩ := Prod.mk.inj (Except.ok.inj ht₃)
    have h₃ : Present { t₂ with spill := some (overwriteCount spill w.count) } := ⟨h₂.1, rfl⟩
    exact ⟨h₃, h₃⟩

end

/-- What a V4 appender does, when its files are there. -/
def presentSpec (H : Hash) (b : V4Builder) : AppenderSpec (b.formatBuilder H) where
  opened := Writing H b.verifySeed
  torn l t := Unfinished H b.verifySeed l t ∧ Present t
  closed := Spilled H b.verifySeed
  torn_of_opened h := ⟨h.unfinished, h.present⟩
  append kv h := by
    apply wp_mono (wp_and ((appenderSpec H b).append kv h) (wp_write_present kv.1 _ kv.2 h.present))
    rintro _ _ - ⟨h', -⟩
    apply h'
  finish h := by
    apply wp_mono (wp_weaken (wp_and ((appenderSpec H b).finish h) (wp_finishData_present h.present)) _)
    · rintro _ _ - ⟨h', -⟩
      apply h'
    · rintro _ ⟨htorn | hclosed, hpresent⟩
      · exact .inl ⟨htorn, hpresent⟩
      · exact .inr hclosed

end V4
