import Mcfreeze.Server.Catalog

/-!
# Reads across hot-swaps

The registry cell, the generation counter and the connections of catalog mode
(`registry.rs`, `lookup.rs`, `watch_catalog` in `modes/catalog_mode.rs`).  The reload loop
takes the next number, builds a catalog with it, swaps it into the registry and only then
stores the number; a connection keeps a catalog and replaces it when the registry holds
one with another number.

Every get is answered from the catalog that was installed when it loaded the registry, and
what a connection observes never goes back.  The numbers are those of fewer than `2 ^ 64`
reloads, so that the counter does not wrap.
-/

namespace Server.HotSwap

open Catalog

/-! ### Lookups -/

inductive GetError where
  | missingDatasetPrefix
  | invalidDatasetName
  | format (message : String)
  deriving DecidableEq, Repr

/-- Split a key on its first colon. -/
def splitPrefix : Bytes → Except GetError (Bytes × Bytes)
  | [] => .error .missingDatasetPrefix
  | b :: rest =>
    if b = 0x3a then .ok ([], rest)
    else
      match splitPrefix rest with
      | .error e => .error e
      | .ok (dataset, key) => .ok (b :: dataset, key)

section

variable {Snapshot : Type} (read : Snapshot → Bytes → Except String LookupOutcome)

/-- Look up a key in a dataset; an unknown dataset is a miss. -/
def catalogGet (catalog : ActiveCatalog Snapshot) (dataset : String) (key : Bytes) :
    Except GetError LookupOutcome :=
  match catalog.datasets.lookup dataset with
  | none => .ok (.miss false)
  | some handle =>
    match read handle.reader key with
    | .error e => .error (.format e)
    | .ok outcome => .ok outcome

/-- Answer a get from a catalog. -/
def answerFrom (catalog : ActiveCatalog Snapshot) (key : Bytes) : Except GetError LookupOutcome :=
  match splitPrefix key with
  | .error e => .error e
  | .ok (datasetBytes, actualKey) =>
    match String.fromUTF8? ⟨datasetBytes.toArray⟩ with
    | none => .error .invalidDatasetName
    | some dataset => catalogGet read catalog dataset actualKey

end

/-! ### The transition system -/

variable {Snapshot : Type}

/-- A get that has loaded the registry and is not answered yet; `loaded` is the catalog
that was installed then. -/
structure Get (Snapshot : Type) where
  key : Bytes
  loaded : ActiveCatalog Snapshot

/-- A connection with its catalog.  Nothing looks at `observed`, the numbers of the
catalogs it has used, the last one first. -/
structure Connection (Snapshot : Type) where
  catalog : ActiveCatalog Snapshot
  pending : Option (Get Snapshot)
  observed : List Nat

/-- An answered get, with the catalog that answered it. -/
structure Answer (Snapshot : Type) where
  key : Bytes
  loaded : ActiveCatalog Snapshot
  catalog : ActiveCatalog Snapshot
  result : Except GetError LookupOutcome

/-- The reload loop: waiting, building a catalog with the next number, about to swap it in,
or about to store the number.  `active` and `generation` are what it found when it was
woken. -/
inductive Reload (Snapshot : Type) where
  | waiting
  | building (nextGen : Nat) (active : ActiveCatalog Snapshot) (generation : Nat)
  | built (nextGen : Nat) (catalog : ActiveCatalog Snapshot)
  | swapped (nextGen : Nat)

/-- The server.  `replaced` are the catalogs that were installed before the active one, and
`answers` the gets that were answered. -/
structure State (Snapshot : Type) where
  active : ActiveCatalog Snapshot
  replaced : List (ActiveCatalog Snapshot)
  generation : Nat
  reload : Reload Snapshot
  connections : Nat → Option (Connection Snapshot)
  answers : List (Answer Snapshot)

/-- All catalogs that were installed, the last one first. -/
def State.installed (s : State Snapshot) : List (ActiveCatalog Snapshot) :=
  s.active :: s.replaced

/-- A server that has loaded its initial catalog. -/
def State.init (initial : ActiveCatalog Snapshot) : State Snapshot :=
  ⟨initial, [], 0, .waiting, fun _ => none, []⟩

/-- The initial catalog: what the catalog file holds, or no datasets. -/
def IsInitial (env : Env Snapshot) (initial : ActiveCatalog Snapshot) : Prop :=
  (∃ data, buildCatalogSync env data 0 = .ok initial) ∨ initial = ⟨[], 0⟩

/-- The steps of the reload loop (`wake`, `build`, `swap`, `store`), of the accept loop
(`accept`, `close`) and of a connection (`load`, `answer`).  `build` carries what the
catalog file holds at that moment. -/
inductive Action where
  | wake
  | build (data : Option Bytes)
  | swap
  | store
  | accept (n : Nat)
  | close (n : Nat)
  | load (n : Nat) (key : Bytes)
  | answer (n : Nat)

/-- The catalog of a connection after it has loaded the registry. -/
def refresh (active catalog : ActiveCatalog Snapshot) : ActiveCatalog Snapshot :=
  if active.generation ≠ catalog.generation then active else catalog

section

variable (env : Env Snapshot) (read : Snapshot → Bytes → Except String LookupOutcome)

/-- One step, if it is enabled. -/
def step (s : State Snapshot) : Action → Option (State Snapshot)
  | .wake =>
    match s.reload with
    | .waiting => some { s with reload := .building (s.generation + 1) s.active s.generation }
    | _ => none
  | .build data =>
    match s.reload with
    | .building nextGen _ _ =>
      match buildCatalogSync env data nextGen with
      | .error _ => some { s with reload := .waiting }
      | .ok catalog => some { s with reload := .built nextGen catalog }
    | _ => none
  | .swap =>
    match s.reload with
    | .built nextGen catalog =>
      some { s with active := catalog, replaced := s.active :: s.replaced, reload := .swapped nextGen }
    | _ => none
  | .store =>
    match s.reload with
    | .swapped nextGen => some { s with generation := nextGen, reload := .waiting }
    | _ => none
  | .accept n =>
    match s.connections n with
    | none => some { s with
        connections := Function.update s.connections n
          (some ⟨s.active, none, [s.active.generation]⟩) }
    | some _ => none
  | .close n => some { s with connections := Function.update s.connections n none }
  | .load n key =>
    match s.connections n with
    | some ⟨catalog, none, observed⟩ =>
      let catalog := refresh s.active catalog
      some { s with
        connections := Function.update s.connections n
          (some ⟨catalog, some ⟨key, s.active⟩, catalog.generation :: observed⟩) }
    | _ => none
  | .answer n =>
    match s.connections n with
    | some ⟨catalog, some get, observed⟩ =>
      some { s with
        connections := Function.update s.connections n (some ⟨catalog, none, observed⟩)
        answers := ⟨get.key, get.loaded, catalog, answerFrom read catalog get.key⟩ :: s.answers }
    | _ => none

/-- The states reached from a server with an initial catalog. -/
inductive Reachable : State Snapshot → Prop where
  | init {initial} : IsInitial env initial → Reachable (.init initial)
  | step {s s' a} : Reachable s → step env read s a = some s' → Reachable s'

end

/-! ### What a step does -/

section

variable {env : Env Snapshot} {read : Snapshot → Bytes → Except String LookupOutcome}
  {s s' : State Snapshot} {n : Nat}

theorem step_wake (hstep : step env read s .wake = some s') :
  s.reload = .waiting ∧ s' = { s with reload := .building (s.generation + 1) s.active s.generation }
  := by
  simp only [step] at hstep
  split at hstep
  · next hreload => exact ⟨hreload, (Option.some.inj hstep).symm⟩
  · simp at hstep

/-- A build fails, or gives a catalog of the next generation. -/
theorem step_build {data : Option Bytes} (hstep : step env read s (.build data) = some s') :
  ∃ nextGen active generation, s.reload = .building nextGen active generation
    ∧ (s' = { s with reload := .waiting }
      ∨ ∃ catalog, buildCatalogSync env data nextGen = .ok catalog
        ∧ s' = { s with reload := .built nextGen catalog })
  := by
  simp only [step] at hstep
  split at hstep
  · next nextGen active generation hreload =>
    refine ⟨nextGen, active, generation, hreload, ?_⟩
    split at hstep
    · exact .inl (Option.some.inj hstep).symm
    · next catalog hbuild => exact .inr ⟨catalog, hbuild, (Option.some.inj hstep).symm⟩
  · simp at hstep

theorem step_swap (hstep : step env read s .swap = some s') :
  ∃ nextGen catalog, s.reload = .built nextGen catalog
    ∧ s' = { s with active := catalog, replaced := s.active :: s.replaced, reload := .swapped nextGen }
  := by
  simp only [step] at hstep
  split at hstep
  · next nextGen catalog hreload => exact ⟨nextGen, catalog, hreload, (Option.some.inj hstep).symm⟩
  · simp at hstep

theorem step_store (hstep : step env read s .store = some s') :
  ∃ nextGen, s.reload = .swapped nextGen ∧ s' = { s with generation := nextGen, reload := .waiting }
  := by
  simp only [step] at hstep
  split at hstep
  · next nextGen hreload => exact ⟨nextGen, hreload, (Option.some.inj hstep).symm⟩
  · simp at hstep

theorem step_accept (hstep : step env read s (.accept n) = some s') :
  s' = { s with
    connections := Function.update s.connections n (some ⟨s.active, none, [s.active.generation]⟩) }
  := by
  simp only [step] at hstep
  split at hstep
  · exact (Option.some.inj hstep).symm
  · simp at hstep

theorem step_close (hstep : step env read s (.close n) = some s') :
  s' = { s with connections := Function.update s.connections n none }
  :=
  (Option.some.inj hstep).symm

theorem step_load {key : Bytes} (hstep : step env read s (.load n key) = some s') :
  ∃ catalog observed, s.connections n = some ⟨catalog, none, observed⟩
    ∧ s' = { s with
      connections := Function.update s.connections n (some ⟨refresh s.active catalog,
        some ⟨key, s.active⟩, (refresh s.active catalog).generation :: observed⟩) }
  := by
  simp only [step] at hstep
  split at hstep
  · next catalog observed hn => exact ⟨catalog, observed, hn, (Option.some.inj hstep).symm⟩
  · simp at hstep

/-- A lookup is answered from the catalog that it has pinned. -/
theorem step_answer (hstep : step env read s (.answer n) = some s') :
  ∃ catalog get observed, s.connections n = some ⟨catalog, some get, observed⟩
    ∧ s' = { s with
      connections := Function.update s.connections n (some ⟨catalog, none, observed⟩)
      answers := ⟨get.key, get.loaded, catalog, answerFrom read catalog get.key⟩ :: s.answers }
  := by
  simp only [step] at hstep
  split at hstep
  · next catalog get observed hn =>
    exact ⟨catalog, get, observed, hn, (Option.some.inj hstep).symm⟩
  · simp at hstep

end

/-! ### The invariant -/

/-- What the reload loop knows: the active catalog has the stored number, or the next one
when the number is about to be stored. -/
def Numbered (s : State Snapshot) : Prop :=
  match s.reload with
  | .waiting => s.active.generation = s.generation
  | .building nextGen active generation =>
    s.active.generation = s.generation ∧ nextGen = s.generation + 1
      ∧ active = s.active ∧ generation = s.generation
  | .built nextGen catalog =>
    s.active.generation = s.generation ∧ nextGen = s.generation + 1 ∧ catalog.generation = nextGen
  | .swapped nextGen => s.active.generation = nextGen ∧ nextGen = s.generation + 1

/-- A connection has an installed catalog, the last one it observed; a get that is not
answered yet has loaded this catalog. -/
structure Connection.Ok (installed : List (ActiveCatalog Snapshot)) (conn : Connection Snapshot) :
    Prop where
  installed : conn.catalog ∈ installed
  monotone : (conn.catalog.generation :: conn.observed).Pairwise (· ≥ ·)
  loaded : ∀ get, conn.pending = some get → get.loaded = conn.catalog

/-- The invariant. -/
structure Inv (read : Snapshot → Bytes → Except String LookupOutcome) (s : State Snapshot) : Prop where
  numbered : Numbered s
  decreasing : s.installed.Pairwise fun a b => b.generation < a.generation
  connections : ∀ n conn, s.connections n = some conn → conn.Ok s.installed
  answers : ∀ a ∈ s.answers, a.catalog = a.loaded ∧ a.result = answerFrom read a.catalog a.key

theorem buildCatalogSync_generation {env : Env Snapshot} {data : Option Bytes} {generation : Nat}
    {catalog : ActiveCatalog Snapshot} (h : buildCatalogSync env data generation = .ok catalog) :
  catalog.generation = generation
  := by
  rw [buildCatalogSync] at h
  split at h
  · simp at h
  · obtain rfl := Except.ok.inj h
    rfl

variable {read : Snapshot → Bytes → Except String LookupOutcome} {s : State Snapshot}

/-- The active catalog has the largest number of all that were installed. -/
theorem Inv.le_active (h : Inv read s) {catalog : ActiveCatalog Snapshot}
    (hmem : catalog ∈ s.installed) :
  catalog.generation ≤ s.active.generation
  := by
  rcases List.mem_cons.mp hmem with rfl | hmem
  · apply Nat.le_refl
  · apply Nat.le_of_lt
    apply (List.pairwise_cons.mp h.decreasing).1 catalog hmem

/-- An installed catalog is determined by its number, so a connection that has loaded the
registry has the active catalog. -/
theorem Inv.refresh_eq (h : Inv read s) {catalog : ActiveCatalog Snapshot}
    (hmem : catalog ∈ s.installed) :
  refresh s.active catalog = s.active
  := by
  rw [refresh]
  split
  · rfl
  · next hgen =>
    have heq : s.active.generation = catalog.generation := Classical.not_not.mp hgen
    rcases List.mem_cons.mp hmem with rfl | hmem
    · rfl
    · have hlt := (List.pairwise_cons.mp h.decreasing).1 catalog hmem
      omega

theorem Connection.Ok.mono {installed : List (ActiveCatalog Snapshot)} {conn : Connection Snapshot}
    (h : conn.Ok installed) (catalog : ActiveCatalog Snapshot) :
  conn.Ok (catalog :: installed)
  :=
  ⟨List.mem_cons_of_mem _ h.installed, h.monotone, h.loaded⟩

/-- Replacing one connection by one that is all right. -/
theorem Inv.updateConnection (h : Inv read s) {n : Nat} {conn : Option (Connection Snapshot)}
    (hconn : ∀ c, conn = some c → c.Ok s.installed) {m : Nat} {c : Connection Snapshot}
    (hm : Function.update s.connections n conn m = some c) :
  c.Ok s.installed
  := by
  by_cases hmn : m = n
  · rw [hmn, Function.update_self] at hm
    apply hconn c hm
  · rw [Function.update_of_ne hmn] at hm
    apply h.connections m c hm

/-- A catalog with a larger number than the active one has a larger number than all that
were installed. -/
theorem Inv.decreasing_swap (h : Inv read s) {catalog : ActiveCatalog Snapshot}
    (hgen : s.active.generation < catalog.generation) :
  (catalog :: s.installed).Pairwise fun a b => b.generation < a.generation
  := by
  apply List.pairwise_cons.mpr
  refine ⟨?_, h.decreasing⟩
  intro c hc
  apply Nat.lt_of_le_of_lt (h.le_active hc) hgen

/-- A connection that has loaded the registry has the active catalog, whose number is at
least those it has observed. -/
theorem Inv.ok_load (h : Inv read s) {catalog : ActiveCatalog Snapshot} {observed : List Nat}
    (hok : Connection.Ok s.installed ⟨catalog, none, observed⟩) (key : Bytes) :
  Connection.Ok s.installed ⟨s.active, some ⟨key, s.active⟩, s.active.generation :: observed⟩
  := by
  refine ⟨List.mem_cons_self, ?_, ?_⟩
  · have hle := h.le_active hok.installed
    have hmono := List.pairwise_cons.mp hok.monotone
    have hall : ∀ g ∈ observed, s.active.generation ≥ g := by
      intro g hg
      exact Nat.le_trans (hmono.1 g hg) hle
    apply List.pairwise_cons.mpr
    refine ⟨?_, List.pairwise_cons.mpr ⟨hall, hmono.2⟩⟩
    intro g hg
    rcases List.mem_cons.mp hg with rfl | hg
    · apply Nat.le_refl
    · apply hall g hg
  · rintro _ ⟨⟩
    rfl

/-- The invariant holds at the start. -/
theorem inv_init {env : Env Snapshot} {initial : ActiveCatalog Snapshot} (h : IsInitial env initial) :
  Inv read (State.init initial)
  := by
  have hgen : initial.generation = 0 := by
    rcases h with ⟨data, hdata⟩ | rfl
    · apply buildCatalogSync_generation hdata
    · rfl
  refine ⟨hgen, List.pairwise_singleton _ _, ?_, ?_⟩
  · intro n conn hconn
    simp [State.init] at hconn
  · intro a ha
    simp [State.init] at ha

section

variable {env : Env Snapshot} {s' : State Snapshot} {n : Nat}

/-- A reload under way knows the active catalog and the number that is stored. -/
theorem Inv.wake (h : Inv read s) (hstep : step env read s .wake = some s') :
  Inv read s'
  := by
  have hnum := h.numbered
  obtain ⟨hreload, rfl⟩ := step_wake hstep
  rw [Numbered, hreload] at hnum
  exact ⟨⟨hnum, rfl, rfl, rfl⟩, h.decreasing, h.connections, h.answers⟩

/-- A build keeps the invariant. -/
theorem Inv.build {data : Option Bytes} (h : Inv read s)
    (hstep : step env read s (.build data) = some s') :
  Inv read s'
  := by
  have hnum := h.numbered
  obtain ⟨nextGen, active, generation, hreload, rfl | ⟨catalog, hbuild, rfl⟩⟩ := step_build hstep
  · rw [Numbered, hreload] at hnum
    exact ⟨hnum.1, h.decreasing, h.connections, h.answers⟩
  · rw [Numbered, hreload] at hnum
    exact ⟨⟨hnum.1, hnum.2.1, buildCatalogSync_generation hbuild⟩, h.decreasing, h.connections,
      h.answers⟩

/-- The catalog that is swapped in has the largest number. -/
theorem Inv.swap (h : Inv read s) (hstep : step env read s .swap = some s') :
  Inv read s'
  := by
  have hnum := h.numbered
  obtain ⟨nextGen, catalog, hreload, rfl⟩ := step_swap hstep
  rw [Numbered, hreload] at hnum
  obtain ⟨hactive, hnext, hcatalog⟩ := hnum
  have hgen : s.active.generation < catalog.generation := by omega
  refine ⟨⟨hcatalog, hnext⟩, h.decreasing_swap hgen, ?_, h.answers⟩
  intro m conn hconn
  apply (h.connections m conn hconn).mono

theorem Inv.store (h : Inv read s) (hstep : step env read s .store = some s') :
  Inv read s'
  := by
  have hnum := h.numbered
  obtain ⟨nextGen, hreload, rfl⟩ := step_store hstep
  rw [Numbered, hreload] at hnum
  exact ⟨hnum.1, h.decreasing, h.connections, h.answers⟩

/-- The accept of a connection keeps the invariant. -/
theorem Inv.accept (h : Inv read s) (hstep : step env read s (.accept n) = some s') :
  Inv read s'
  := by
  obtain rfl := step_accept hstep
  refine ⟨h.numbered, h.decreasing, ?_, h.answers⟩
  intro m conn hconn
  apply h.updateConnection _ hconn
  rintro _ ⟨⟩
  refine ⟨List.mem_cons_self, ?_, ?_⟩
  · simp
  · rintro _ ⟨⟩

theorem Inv.close (h : Inv read s) (hstep : step env read s (.close n) = some s') :
  Inv read s'
  := by
  obtain rfl := step_close hstep
  refine ⟨h.numbered, h.decreasing, ?_, h.answers⟩
  intro m conn hconn
  apply h.updateConnection _ hconn
  rintro _ ⟨⟩

/-- A connection that loads the registry has the active catalog. -/
theorem Inv.load {key : Bytes} (h : Inv read s) (hstep : step env read s (.load n key) = some s') :
  Inv read s'
  := by
  obtain ⟨catalog, observed, hn, rfl⟩ := step_load hstep
  have hok := h.connections n _ hn
  refine ⟨h.numbered, h.decreasing, ?_, h.answers⟩
  intro m conn hconn
  apply h.updateConnection _ hconn
  rintro _ ⟨⟩
  rw [h.refresh_eq hok.installed]
  apply h.ok_load hok

/-- A get is answered from the catalog that it loaded. -/
theorem Inv.answer (h : Inv read s) (hstep : step env read s (.answer n) = some s') :
  Inv read s'
  := by
  obtain ⟨catalog, get, observed, hn, rfl⟩ := step_answer hstep
  have hok := h.connections n _ hn
  refine ⟨h.numbered, h.decreasing, ?_, ?_⟩
  · intro m conn hconn
    apply h.updateConnection _ hconn
    rintro _ ⟨⟩
    refine ⟨hok.installed, hok.monotone, ?_⟩
    rintro _ ⟨⟩
  · intro a ha
    rcases List.mem_cons.mp ha with rfl | ha
    · exact ⟨(hok.loaded get rfl).symm, rfl⟩
    · apply h.answers a ha

/-- A step keeps the invariant. -/
theorem Inv.step {a : Action} (h : Inv read s) (hstep : step env read s a = some s') :
  Inv read s'
  := by
  cases a with
  | wake => exact h.wake hstep
  | build data => exact h.build hstep
  | swap => exact h.swap hstep
  | store => exact h.store hstep
  | accept n => exact h.accept hstep
  | close n => exact h.close hstep
  | load n key => exact h.load hstep
  | answer n => exact h.answer hstep

end

theorem Reachable.inv {env : Env Snapshot} (h : Reachable env read s) :
  Inv read s
  := by
  induction h with
  | init hinit => apply inv_init hinit
  | step _ hstep ih => apply ih.step hstep

/-- Reads are monotone across hot-swaps: a get is answered from the catalog that was
installed when it loaded the registry, a connection never goes back, no two installed
catalogs have the same number, and a reload that fails changes neither the installed
catalog nor the counter. -/
theorem reads_monotone {env : Env Snapshot} (h : Reachable env read s) :
  (∀ a ∈ s.answers, a.catalog = a.loaded ∧ a.result = answerFrom read a.catalog a.key)
    ∧ (∀ n conn, s.connections n = some conn → conn.observed.Pairwise (· ≥ ·))
    ∧ s.installed.Pairwise (fun a b => a.generation ≠ b.generation)
    ∧ ∀ nextGen active generation data e s', s.reload = .building nextGen active generation →
      buildCatalogSync env data nextGen = .error e → step env read s (.build data) = some s' →
      s'.active = active ∧ s'.generation = generation ∧ s'.installed = s.installed
  := by
  have hinv := h.inv
  refine ⟨hinv.answers, ?_, ?_, ?_⟩
  · intro n conn hconn
    apply (List.pairwise_cons.mp (hinv.connections n conn hconn).monotone).2
  · apply hinv.decreasing.imp
    intro a b hlt
    apply Nat.ne_of_gt hlt
  · intro nextGen active generation data e s' hreload hfail hstep
    have hnum := hinv.numbered
    rw [Numbered, hreload] at hnum
    obtain ⟨-, -, rfl, rfl⟩ := hnum
    simp only [step, hreload, hfail] at hstep
    obtain rfl := Option.some.inj hstep
    exact ⟨rfl, rfl, rfl⟩

/-- A sequence of steps, if each is enabled. -/
def runActions (env : Env Snapshot) (read : Snapshot → Bytes → Except String LookupOutcome)
    (s : State Snapshot) : List Action → Option (State Snapshot)
  | [] => some s
  | a :: as => (step env read s a).bind fun s' => runActions env read s' as

/-- A run of actions from a state that can be reached reaches another. -/
theorem Reachable.runActions {env : Env Snapshot} {s' : State Snapshot} {as : List Action}
    (hs : Reachable env read s) (h : runActions env read s as = some s') :
  Reachable env read s'
  := by
  induction as generalizing s with
  | nil =>
    obtain rfl := Option.some.inj h
    apply hs
  | cons a as ih =>
    obtain ⟨s₁, h₁, h₂⟩ := Option.bind_eq_some_iff.mp h
    apply ih (Reachable.step hs h₁) h₂

/-- A catalog file with one dataset, and a snapshot that has every key. -/
def oneEnv : Env Unit where
  fromSlice _ := .ok ⟨[⟨"users", "u", "v1", "/mnt/kv/users/v1"⟩]⟩
  openPath _ := .ok ()

def oneRead : Unit → Bytes → Except String LookupOutcome := fun _ _ => .ok (.hit [1])

/-- A connection gets a key before, during and after a reload. -/
def swapBetweenGets : Option (State Unit) :=
  runActions oneEnv oneRead (.init ⟨[], 0⟩)
    [.accept 0, .load 0 [0x75, 0x3a, 0x6b], .wake, .build (some []), .swap, .answer 0,
      .load 0 [0x75, 0x3a, 0x6b], .store, .answer 0]

theorem reads_monotone_swapBetweenGets :
  ∃ s, swapBetweenGets = some s ∧ s.answers.map (fun a => (a.catalog.generation, a.result))
      = [(1, .ok (.hit [1])), (0, .ok (.miss false))]
    ∧ ∀ a ∈ s.answers, a.catalog = a.loaded ∧ a.result = answerFrom oneRead a.catalog a.key
  := by
  have hrun : (swapBetweenGets.map fun s => s.answers.map fun a => (a.catalog.generation, a.result))
      = some [(1, .ok (.hit [1])), (0, .ok (.miss false))] := by
    decide +kernel
  obtain ⟨s, hs, hanswers⟩ := Option.map_eq_some_iff.mp hrun
  refine ⟨s, hs, hanswers, ?_⟩
  exact (reads_monotone ((Reachable.init (.inr rfl)).runActions hs)).1

end Server.HotSwap
