import Mcfreeze.NodeAgent.Agent

/-!
# The datasets in the catalog

Every write of `catalog.json` should name all datasets that the node serves.  The catalog is
rebuilt from the records, and a record is overwritten as soon as the next version of its
dataset is worked on: when that fails, the record no longer says that the dataset is active,
though the previous version is still mounted and served.  The next write for another dataset
then drops it.

As long as every upgrade of a dataset that is served succeeds, no catalog drops a dataset.
-/

namespace NodeAgent

open ControlPlane Agent

/-- The version and the path at which a dataset was last active, if it has not been unmounted
since. -/
def serving (dataset : String) : List Event → Option (String × String)
  | [] => none
  | .active dataset' versionID path :: before =>
    if dataset' = dataset then some (versionID, path) else serving dataset before
  | .unmount path true :: before => (serving dataset before).filter (·.2 ≠ path)
  | _ :: before => serving dataset before

/-- Every catalog that was written has the other datasets that were served at the time. -/
def NeverDrops (history : List Event) : Prop :=
  ∀ e entries before, (.wroteCatalog e entries :: before) <:+ history →
    ∀ d versionID path, d ≠ e → serving d before = some (versionID, path) →
      ∃ keyPrefix, ⟨d, keyPrefix, versionID, path⟩ ∈ entries

/-- A dataset that is served is left as it is, or its upgrade succeeds. -/
def UpgradeSucceeds (cfg : Config) (a : Agent) (assign : NodeAssignment) (o : Outcomes) : Prop :=
  serving assign.dataset a.history ≠ none → a.Skips assign ∨ Agent.Succeeds cfg assign o

/-- The records know what is served. -/
def Agent.KnowsServed (a : Agent) : Prop :=
  ∀ d versionID path, serving d a.history = some (versionID, path) →
    (a.datasetState d).phase = .active ∧ (a.datasetState d).versionID = versionID
      ∧ (a.datasetState d).mountPath = path

section

variable {cfg : Config} {assign : NodeAssignment} {o : Outcomes} {a : Agent}

/-- What is served after an unmount was served before. -/
theorem serving_unmount {d path : String} {ok : Bool} {history : List Event} {x : String × String}
    (h : serving d (.unmount path ok :: history) = some x) :
  serving d history = some x
  := by
  cases ok with
  | false => exact h
  | true =>
    rw [serving] at h
    exact (Option.filter_eq_some_iff.mp h).1

/-- A cleanup makes nothing served. -/
theorem serving_cleanup {prev : DatasetState} {d : String} {history : List Event}
    {x : String × String} (h : serving d (cleanupEvents prev o ++ history) = some x) :
  serving d history = some x
  := by
  unfold cleanupEvents at h
  by_cases hpv : prev.pvName ≠ ""
  · rw [if_pos hpv] at h
    by_cases hpath : prev.mountPath ≠ ""
    · rw [if_pos hpath] at h
      exact serving_unmount h
    · rw [if_neg hpath] at h
      exact h
  · rw [if_neg hpv] at h
    by_cases hpath : prev.mountPath ≠ ""
    · rw [if_pos hpath] at h
      exact serving_unmount h
    · rw [if_neg hpath] at h
      exact h

theorem serving_early {events : List Event} (h : EarlyFailure cfg assign events) (d : String)
    (history : List Event) :
  serving d (events ++ history) = serving d history
  := by
  cases h with
  | volume => rfl
  | attach => rfl
  | device => rfl
  | mount => rfl

/-- A catalog that is made from records that know what is served has it. -/
theorem Agent.KnowsServed.promotion (h : a.KnowsServed) {d versionID path : String}
    (hne : d ≠ assign.dataset) (hserving : serving d a.history = some (versionID, path)) :
  ∃ keyPrefix, ⟨d, keyPrefix, versionID, path⟩ ∈ promotion cfg assign a
  := by
  obtain ⟨hphase, rfl, rfl⟩ := h d _ _ hserving
  have hstate : a.datasetState d ≠ {} := by
    intro hempty
    rw [hempty] at hphase
    simp at hphase
  obtain ⟨hmem, hdataset⟩ := datasetState_mem hstate
  refine ⟨(a.datasetState d).keyPrefix, ?_⟩
  unfold Agent.promotion catalogEntries
  apply List.mem_append_left
  rw [List.mem_map]
  refine ⟨_, List.mem_filter.mpr ⟨hmem, ?_⟩, ?_⟩
  · simp [hphase, hdataset, hne]
  · rw [hdataset]

/-- A failed assignment keeps what the records know, if its dataset was not served. -/
theorem Agent.KnowsServed.failed (h : a.KnowsServed) (hcond : serving assign.dataset a.history = none)
    {err : String} {catalog : Option (List CatalogEntry)} {history : List Event}
    (hhistory : ∀ d, serving d history = serving d a.history) :
  KnowsServed ⟨(a.insert (a.errorRecord assign err)).datasets, catalog, history⟩
  := by
  intro d versionID path hserving
  rw [hhistory] at hserving
  have hne : d ≠ assign.dataset := by
    rintro rfl
    rw [hcond] at hserving
    simp at hserving
  have hstate : (a.insert (a.errorRecord assign err)).datasetState d = a.datasetState d :=
    datasetState_insert_of_ne a hne
  change ((a.insert (a.errorRecord assign err)).datasetState d).phase = _
    ∧ ((a.insert (a.errorRecord assign err)).datasetState d).versionID = _
    ∧ ((a.insert (a.errorRecord assign err)).datasetState d).mountPath = _
  rw [hstate]
  apply h d versionID path hserving

/-- A promotion records what it serves. -/
theorem Agent.KnowsServed.promoted (h : a.KnowsServed) :
  (promoted cfg assign a).KnowsServed
  := by
  intro d versionID path hserving
  by_cases heq : assign.dataset = d
  · subst heq
    have hserved : serving assign.dataset (Agent.promoted cfg assign a).history
        = some (assign.version.id, cfg.mountPath assign.dataset assign.version.id) := by
      simp [Agent.promoted, serving]
    rw [hserved, Option.some.injEq, Prod.mk.injEq] at hserving
    have hstate : (Agent.promoted cfg assign a).datasetState assign.dataset = activeRecord cfg assign :=
      datasetState_insert_self a (activeRecord cfg assign)
    rw [hstate]
    exact ⟨rfl, hserving⟩
  · have hserved : serving d (Agent.promoted cfg assign a).history = serving d a.history := by
      simp [Agent.promoted, serving, mountEvents, heq]
    rw [hserved] at hserving
    have hstate : (Agent.promoted cfg assign a).datasetState d = a.datasetState d :=
      datasetState_insert_of_ne a (Ne.symm heq)
    rw [hstate]
    apply h d versionID path hserving

theorem Agent.KnowsServed.cleanup (h : a.KnowsServed) (prev : DatasetState) (o : Outcomes) :
  (a.cleanupOldVersion prev o).KnowsServed
  := by
  rw [cleanupOldVersion_eq]
  intro d versionID path hserving
  apply h d versionID path (serving_cleanup hserving)

/-- An event that is not a write of the catalog does not matter. -/
theorem NeverDrops.cons {history : List Event} {event : Event} (h : NeverDrops history)
    (hevent : ∀ e entries, event ≠ .wroteCatalog e entries) :
  NeverDrops (event :: history)
  := by
  intro e entries before hsuffix
  apply h e entries before (List.suffix_of_suffix_cons hsuffix (hevent e entries))

theorem NeverDrops.mountEvents {history : List Event} (h : NeverDrops history) :
  NeverDrops (mountEvents cfg assign ++ history)
  := by
  apply NeverDrops.cons
  · apply NeverDrops.cons h
    simp
  · simp

theorem NeverDrops.early {events history : List Event} (h : NeverDrops history)
    (hevents : EarlyFailure cfg assign events) :
  NeverDrops (events ++ history)
  := by
  cases hevents with
  | volume => exact h
  | attach => exact h.cons (by simp)
  | device => exact h.cons (by simp)
  | mount => exact (h.cons (by simp)).cons (by simp)

/-- The catalog of a promotion drops nothing, when the records know what is served. -/
theorem NeverDrops.wrote (h : NeverDrops a.history) (hserved : a.KnowsServed) :
  NeverDrops (.wroteCatalog assign.dataset (promotion cfg assign a)
    :: (Agent.mountEvents cfg assign ++ a.history))
  := by
  intro e entries before hsuffix
  rcases List.suffix_cons_iff.mp hsuffix with heq | hsuffix
  · rw [List.cons.injEq, Event.wroteCatalog.injEq] at heq
    obtain ⟨⟨rfl, rfl⟩, rfl⟩ := heq
    intro d versionID path hne hserving
    exact hserved.promotion hne hserving
  · apply h.mountEvents e entries before hsuffix

/-- The cleanup of an old version writes no catalog. -/
theorem NeverDrops.cleanup (h : NeverDrops a.history) (prev : DatasetState) (o : Outcomes) :
  NeverDrops (a.cleanupOldVersion prev o).history
  := by
  rw [cleanupOldVersion_eq]
  unfold cleanupEvents
  dsimp only
  rw [List.append_assoc]
  split
  · apply NeverDrops.cons _ (by simp)
    split
    · exact h.cons (by simp)
    · exact h
  · split
    · exact h.cons (by simp)
    · exact h

/-- A reconcile that is allowed keeps what the records know, and writes a catalog that drops
nothing. -/
theorem Agent.KnowsServed.reconcile (h : a.KnowsServed) (hdrops : NeverDrops a.history)
    (hallowed : UpgradeSucceeds cfg a assign o) :
  (a.reconcile cfg assign o).KnowsServed ∧ NeverDrops (a.reconcile cfg assign o).history
  := by
  have hunserved : ¬ a.Skips assign → ¬ Succeeds cfg assign o → serving assign.dataset a.history = none := by
    intro hskips hsucceeds
    by_contra hne
    rcases hallowed hne with h | h
    · exact hskips h
    · exact hsucceeds h
  rcases reconcile_cases cfg assign o a with ⟨-, heq⟩ | ⟨hskips, hmounts, err, events, hevents, heq⟩
    | ⟨hskips, -, hsucceeds, err, heq | heq⟩ | ⟨-, -, heq⟩
  · rw [heq]
    exact ⟨h, hdrops⟩
  · rw [heq]
    refine ⟨?_, hdrops.early hevents⟩
    apply h.failed (hunserved hskips fun h => hmounts h.1)
    intro d
    apply serving_early hevents
  · rw [heq]
    exact ⟨h.failed (hunserved hskips hsucceeds) fun d => rfl, hdrops.mountEvents⟩
  · rw [heq]
    exact ⟨h.failed (hunserved hskips hsucceeds) fun d => rfl, hdrops.wrote h⟩
  · have hpromoted : NeverDrops (Agent.promoted cfg assign a).history :=
      (hdrops.wrote h).cons (by simp)
    rw [heq]
    split
    · exact ⟨h.promoted.cleanup _ o, hpromoted.cleanup _ o⟩
    · exact ⟨h.promoted, hpromoted⟩

end

/-- In every run in which upgrades of datasets that are served succeed, no catalog drops a
dataset that is served. -/
theorem catalog_neverDrops (cfg : Config) (a : Agent) (h : Reached cfg (UpgradeSucceeds cfg) a) :
  NeverDrops a.history
  := by
  suffices hboth : a.KnowsServed ∧ NeverDrops a.history from hboth.2
  induction h with
  | new =>
    refine ⟨?_, ?_⟩
    · intro d versionID path hserving
      simp [new, serving] at hserving
    · intro e entries before hsuffix
      simp [new] at hsuffix
  | reconcile assign o _ hallowed ih =>
    apply ih.1.reconcile ih.2 hallowed

/-- Two datasets, and an upgrade of the first that succeeds. -/
theorem catalog_neverDrops_upgrade :
  Reached ⟨"/mnt/kv"⟩ (UpgradeSucceeds ⟨"/mnt/kv"⟩)
      (((new.reconcile ⟨"/mnt/kv"⟩ (.of "users" "v1" "pvc-1") {}).reconcile ⟨"/mnt/kv"⟩
        (.of "users" "v2" "pvc-2") {}).reconcile ⟨"/mnt/kv"⟩ (.of "items" "w1" "pvc-3") {})
    ∧ NeverDrops (((new.reconcile ⟨"/mnt/kv"⟩ (.of "users" "v1" "pvc-1") {}).reconcile ⟨"/mnt/kv"⟩
        (.of "users" "v2" "pvc-2") {}).reconcile ⟨"/mnt/kv"⟩ (.of "items" "w1" "pvc-3") {}).history
  := by
  have hreached : Reached ⟨"/mnt/kv"⟩ (UpgradeSucceeds ⟨"/mnt/kv"⟩)
      (((new.reconcile ⟨"/mnt/kv"⟩ (.of "users" "v1" "pvc-1") {}).reconcile ⟨"/mnt/kv"⟩
        (.of "users" "v2" "pvc-2") {}).reconcile ⟨"/mnt/kv"⟩ (.of "items" "w1" "pvc-3") {}) := by
    refine .reconcile _ _ (.reconcile _ _ (.reconcile _ _ .new ?_) ?_) ?_
    · exact fun _ => .inr (by decide)
    · exact fun _ => .inr (by decide)
    · exact fun _ => .inr (by decide)
  exact ⟨hreached, catalog_neverDrops _ _ hreached⟩

/-- The upgrade of `users` fails to attach its disk, and the next catalog, for `items`, has
only `items`, though `users` is still mounted and served. -/
theorem not_neverDrops_failedUpgrade :
  ¬ ∀ cfg a, Reached cfg (fun _ _ _ => True) a → NeverDrops a.history
  := by
  intro h
  have hdrops := h ⟨"/mnt/kv"⟩ _ (.reconcile (.of "items" "w1" "pvc-3") {}
    (.reconcile (.of "users" "v2" "pvc-2") { attachDisk := some "timed out" }
      (.reconcile (.of "users" "v1" "pvc-1") {} .new trivial) trivial) trivial)
  obtain ⟨keyPrefix, hmem⟩ := hdrops "items" [⟨"items", "items", "w1", "/mnt/kv/items/w1"⟩]
    [.mount "/mnt/kv/items/w1" "pvc-3" true, .attach "pvc-3" true, .attach "pvc-2" false,
      .active "users" "v1" "/mnt/kv/users/v1",
      .wroteCatalog "users" [⟨"users", "users", "v1", "/mnt/kv/users/v1"⟩],
      .mount "/mnt/kv/users/v1" "pvc-1" true, .attach "pvc-1" true]
    (by decide) "users" "v1" "/mnt/kv/users/v1" (by decide) (by decide)
  simp at hmem

end NodeAgent
