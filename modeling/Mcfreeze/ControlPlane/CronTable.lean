import Mathlib.Data.List.Nodup
import Mathlib.Logic.Function.Basic

/-!
# The cron table

`CronRunnable` (`controller/cron.go`) keeps a job of the cron library for every dataset with a
schedule, and a table of the entries it has made.  `DatasetReconciler` brings the table up to
date whenever a dataset has changed (`Sync`, `Forget`), and `Start` does so once for all the
datasets that it has listed.

A dataset never has two jobs.  When its reconcile is over, it has one job on the schedule of
the object, or none if there is no schedule or no object, as long as no dataset that `Start`
has listed changes before `Start` comes to it.
-/

namespace ControlPlane.Cron

/-! ### Datasets -/

structure NamespacedName where
  ns : String
  name : String
  deriving DecidableEq, Repr

structure CronTrigger where
  schedule : String
  deriving DecidableEq, Repr

structure Trigger where
  cron : Option CronTrigger
  deriving DecidableEq, Repr

/-- A dataset, with what a job reads of it. -/
structure Dataset where
  key : NamespacedName
  uid : String
  shardCount : Int
  trigger : Option Trigger
  deriving DecidableEq, Repr

/-- The schedule of a dataset, which is empty if there is none. -/
def Dataset.schedule (ds : Dataset) : String :=
  ((ds.trigger.bind (·.cron)).map (·.schedule)).getD ""

/-- The schedule on which an object wants a job. -/
def wanted (cr : Option Dataset) : Option String :=
  (cr.map (·.schedule)).filter (· ≠ "")

/-! ### The cron library -/

/-- A job: its entry ID, its schedule, and the copy of the dataset that it fires for. -/
structure Job where
  id : Nat
  schedule : String
  ds : Dataset
  deriving DecidableEq, Repr

/-- A `cron.Cron`; a schedule that cannot be parsed is not added. -/
structure Scheduler (σ : Type) where
  new : σ
  addFunc : σ → String → Dataset → Option (Nat × σ)
  remove : σ → Nat → σ
  jobs : σ → List Job

variable {σ : Type} {S : Scheduler σ}

/-- A job is added under an ID of its own, and removed by its ID. -/
structure Scheduler.Lawful (S : Scheduler σ) : Prop where
  jobs_new : S.jobs S.new = []
  fresh : ∀ c spec ds r, S.addFunc c spec ds = some r → ∀ j ∈ S.jobs c, j.id ≠ r.1
  jobs_addFunc : ∀ c spec ds r, S.addFunc c spec ds = some r →
    (S.jobs r.2).Perm (⟨r.1, spec, ds⟩ :: S.jobs c)
  jobs_remove : ∀ c id, (S.jobs (S.remove c id)).Perm ((S.jobs c).filter (·.id ≠ id))

/-! ### The runnable -/

structure CronEntry where
  schedule : String
  id : Nat
  deriving DecidableEq, Repr

structure CronRunnable (σ : Type) where
  cron : Option σ
  entries : NamespacedName → Option CronEntry

def CronRunnable.zero : CronRunnable σ := ⟨none, fun _ => none⟩

/-- The jobs that may fire. -/
def CronRunnable.jobs (S : Scheduler σ) (c : CronRunnable σ) : List Job :=
  (c.cron.map S.jobs).getD []

/-- Create the scheduler if there is none. -/
def CronRunnable.init (S : Scheduler σ) (c : CronRunnable σ) : CronRunnable σ :=
  { c with cron := some (c.cron.getD S.new) }

/-- Remove the job and the entry of a dataset, if there are. -/
def CronRunnable.drop (S : Scheduler σ) (c : CronRunnable σ) (key : NamespacedName) : CronRunnable σ :=
  match c.entries key with
  | none => c
  | some e =>
    { cron := c.cron.map fun cron => S.remove cron e.id
      entries := Function.update c.entries key none }

/-- Add a job and an entry for a dataset; a schedule that cannot be parsed is an error. -/
def CronRunnable.add (S : Scheduler σ) (c : CronRunnable σ) (ds : Dataset) : CronRunnable σ × Bool :=
  match S.addFunc (c.cron.getD S.new) ds.schedule ds with
  | none => (c, false)
  | some (id, cron) =>
    (⟨some cron, Function.update c.entries ds.key (some ⟨ds.schedule, id⟩)⟩, true)

/-- `Sync`, and whether it succeeds. -/
def CronRunnable.sync (S : Scheduler σ) (c : CronRunnable σ) (ds : Dataset) : CronRunnable σ × Bool :=
  let c := c.init S
  if ds.schedule = "" then (c.drop S ds.key, true)
  else if (c.entries ds.key).map (·.schedule) = some ds.schedule then (c, true)
  else (c.drop S ds.key).add S ds

/-- `Forget`. -/
def CronRunnable.forget (S : Scheduler σ) (c : CronRunnable σ) (key : NamespacedName) :
    CronRunnable σ :=
  c.drop S key

/-! ### The two tables -/

/-- The entries and the jobs belong together: each entry has a job, each job is the one of
the entry of its dataset, and no two jobs have one ID. -/
structure TableInv (S : Scheduler σ) (c : CronRunnable σ) : Prop where
  entry : ∀ key e, c.entries key = some e →
    ∃ j ∈ c.jobs S, j.ds.key = key ∧ j.id = e.id ∧ j.schedule = e.schedule
  job : ∀ j ∈ c.jobs S, c.entries j.ds.key = some ⟨j.schedule, j.id⟩
  nodup : ((c.jobs S).map (·.id)).Nodup

theorem TableInv.zero :
  TableInv S (CronRunnable.zero : CronRunnable σ)
  where
  entry := by simp [CronRunnable.zero]
  job := by simp [CronRunnable.zero, CronRunnable.jobs]
  nodup := by simp [CronRunnable.zero, CronRunnable.jobs]

theorem jobs_init (hS : S.Lawful) (c : CronRunnable σ) :
  (c.init S).jobs S = c.jobs S
  := by
  cases hc : c.cron with
  | none => simp [CronRunnable.jobs, CronRunnable.init, hc, hS.jobs_new]
  | some cron => simp [CronRunnable.jobs, CronRunnable.init, hc]

/-- A restarted scheduler goes on from a table that agrees with it. -/
theorem TableInv.init (hS : S.Lawful) {c : CronRunnable σ} (h : TableInv S c) :
  TableInv S (c.init S)
  where
  entry := by
    rw [jobs_init hS]
    exact h.entry
  job := by
    rw [jobs_init hS]
    exact h.job
  nodup := by
    rw [jobs_init hS]
    exact h.nodup

/-- A job has the ID of the entry of its dataset, and of no other one. -/
theorem TableInv.id_eq_iff {c : CronRunnable σ} (h : TableInv S c) {key : NamespacedName}
    {e : CronEntry} (he : c.entries key = some e) {j : Job} (hj : j ∈ c.jobs S) :
  j.id = e.id ↔ j.ds.key = key
  := by
  constructor
  · intro hid
    obtain ⟨j', hj', hkey, hid', -⟩ := h.entry key e he
    rw [List.inj_on_of_nodup_map h.nodup hj hj' (hid.trans hid'.symm)]
    exact hkey
  · rintro rfl
    have := (h.job j hj).symm.trans he
    rw [← Option.some.inj this]

/-- Without the entry of a dataset the table has the other jobs. -/
theorem jobs_drop (hS : S.Lawful) {c : CronRunnable σ} (h : TableInv S c)
    (key : NamespacedName) :
  ((c.drop S key).jobs S).Perm ((c.jobs S).filter (·.ds.key ≠ key))
  := by
  cases he : c.entries key with
  | none =>
    have hall : ∀ j ∈ c.jobs S, j.ds.key ≠ key := by
      rintro j hj rfl
      cases (h.job j hj).symm.trans he
    rw [CronRunnable.drop, he, List.filter_eq_self.2 (by simpa using hall)]
  | some e =>
    have hcongr : (c.jobs S).filter (·.ds.key ≠ key) = (c.jobs S).filter (·.id ≠ e.id) :=
      List.filter_congr fun j hj => by simp [h.id_eq_iff he hj]
    rw [hcongr, CronRunnable.drop, he]
    cases hc : c.cron with
    | none => simp [CronRunnable.jobs, hc]
    | some cron => simpa [CronRunnable.jobs, hc] using hS.jobs_remove cron e.id

theorem entries_drop (c : CronRunnable σ) (key : NamespacedName) :
  (c.drop S key).entries = Function.update c.entries key none
  := by
  cases he : c.entries key with
  | none =>
    have hupdate : Function.update c.entries key none = c.entries :=
      Function.update_eq_self_iff.2 he.symm
    rw [hupdate, CronRunnable.drop, he]
  | some e => rw [CronRunnable.drop, he]

/-- A dropped entry leaves a table and a scheduler that agree. -/
theorem TableInv.drop (hS : S.Lawful) {c : CronRunnable σ} (h : TableInv S c)
    (key : NamespacedName) :
  TableInv S (c.drop S key)
  := by
  have hperm := jobs_drop hS h key
  refine ⟨fun key' e he => ?_, fun j hj => ?_, ?_⟩
  · rw [entries_drop] at he
    by_cases hkey : key' = key
    · rw [hkey, Function.update_self] at he
      cases he
    · rw [Function.update_of_ne hkey] at he
      obtain ⟨j, hj, rfl, hj'⟩ := h.entry key' e he
      exact ⟨j, hperm.mem_iff.2 (List.mem_filter.2 ⟨hj, by simpa using hkey⟩), rfl, hj'⟩
  · obtain ⟨hj, hkey⟩ := List.mem_filter.1 (hperm.mem_iff.1 hj)
    rw [entries_drop, Function.update_of_ne (by simpa using hkey)]
    exact h.job j hj
  · exact (hperm.map _).nodup_iff.2 (h.nodup.sublist (List.filter_sublist.map _))

/-- Adding a job for a dataset that has none. -/
theorem TableInv.add (hS : S.Lawful) {c : CronRunnable σ} (h : TableInv S c) {ds : Dataset}
    (hnone : c.entries ds.key = none) :
  TableInv S (c.add S ds).1
  := by
  cases hadd : S.addFunc (c.cron.getD S.new) ds.schedule ds with
  | none => simpa only [CronRunnable.add, hadd] using h
  | some r =>
    obtain ⟨id, cron⟩ := r
    have hjobs : S.jobs (c.cron.getD S.new) = c.jobs S := by
      cases hc : c.cron with
      | none => simp [CronRunnable.jobs, hc, hS.jobs_new]
      | some cron => simp [CronRunnable.jobs, hc]
    have hperm := hS.jobs_addFunc _ _ _ _ hadd
    have hfresh := hS.fresh _ _ _ _ hadd
    rw [hjobs] at hperm hfresh
    simp only [CronRunnable.add, hadd]
    refine ⟨fun key e he => ?_, fun j hj => ?_, ?_⟩
    · dsimp only at he
      by_cases hkey : key = ds.key
      · subst hkey
        rw [Function.update_self] at he
        cases he
        exact ⟨_, hperm.mem_iff.2 List.mem_cons_self, rfl, rfl, rfl⟩
      · rw [Function.update_of_ne hkey] at he
        obtain ⟨j, hj, hj'⟩ := h.entry key e he
        exact ⟨j, hperm.mem_iff.2 (List.mem_cons_of_mem _ hj), hj'⟩
    · obtain rfl | hj := List.mem_cons.1 (hperm.mem_iff.1 hj)
      · exact Function.update_self ..
      · have hkey : j.ds.key ≠ ds.key := by
          intro hkey
          have := h.job j hj
          rw [hkey, hnone] at this
          cases this
        dsimp only
        rw [Function.update_of_ne hkey]
        exact h.job j hj
    · refine (hperm.map _).nodup_iff.2 (List.nodup_cons.2 ⟨?_, h.nodup⟩)
      intro hmem
      obtain ⟨j, hj, hid⟩ := List.mem_map.1 hmem
      exact hfresh j hj hid

theorem TableInv.sync (hS : S.Lawful) {c : CronRunnable σ} (h : TableInv S c) (ds : Dataset) :
  TableInv S (c.sync S ds).1
  := by
  have hinit := h.init hS
  simp only [CronRunnable.sync]
  split_ifs
  · exact hinit.drop hS ds.key
  · exact hinit
  · refine (hinit.drop hS ds.key).add hS ?_
    rw [entries_drop, Function.update_self]

/-- The jobs of a dataset are the one of its entry. -/
theorem TableInv.jobs_of_key {c : CronRunnable σ} (h : TableInv S c) (key : NamespacedName) :
  ((c.jobs S).filter (·.ds.key = key)).map (·.schedule)
    = ((c.entries key).map (·.schedule)).toList
  := by
  cases he : c.entries key with
  | none =>
    have hnone : (c.jobs S).filter (·.ds.key = key) = [] := by
      refine List.filter_eq_nil_iff.2 fun j hj hkey => ?_
      have := h.job j hj
      rw [of_decide_eq_true hkey, he] at this
      cases this
    simp [hnone]
  | some e =>
    obtain ⟨j, hj, hkey, -, hschedule⟩ := h.entry key e he
    have hcongr : (c.jobs S).filter (·.ds.key = key) = (c.jobs S).filter (· = j) := by
      refine List.filter_congr fun j' hj' => ?_
      have hiff : j'.ds.key = key ↔ j' = j := by
        rw [← h.id_eq_iff he hj', ← (h.id_eq_iff he hj).2 hkey]
        exact ⟨List.inj_on_of_nodup_map h.nodup hj' hj, fun heq => heq ▸ rfl⟩
      simp [hiff]
    have hone : (c.jobs S).filter (· = j) = [j] := by
      rw [List.filter_eq, List.count_eq_one_of_mem (List.Nodup.of_map _ h.nodup) hj]
      rfl
    simp [hcongr, hone, hschedule]

/-! ### What a sync does -/

theorem entries_add_of_ne (c : CronRunnable σ) {ds : Dataset} {key : NamespacedName}
    (hkey : key ≠ ds.key) :
  (c.add S ds).1.entries key = c.entries key
  := by
  cases hadd : S.addFunc (c.cron.getD S.new) ds.schedule ds with
  | none => simp only [CronRunnable.add, hadd]
  | some r => simp only [CronRunnable.add, hadd, Function.update_of_ne hkey]

/-- The entries of other datasets stay. -/
theorem entries_sync_of_ne (c : CronRunnable σ) {ds : Dataset} {key : NamespacedName}
    (hkey : key ≠ ds.key) :
  (c.sync S ds).1.entries key = c.entries key
  := by
  have hdrop : ((c.init S).drop S ds.key).entries key = c.entries key := by
    rw [entries_drop, Function.update_of_ne hkey]
    rfl
  simp only [CronRunnable.sync]
  split_ifs
  · exact hdrop
  · rfl
  · rw [entries_add_of_ne _ hkey, hdrop]

theorem wanted_eq_none {ds : Dataset} (h : ds.schedule = "") :
  wanted (some ds) = none
  := by
  simp [wanted, h]

theorem wanted_eq_some {ds : Dataset} (h : ds.schedule ≠ "") :
  wanted (some ds) = some ds.schedule
  := by
  simp [wanted, h]

/-- A sync that succeeds leaves the entry that the dataset wants. -/
theorem entries_sync {c : CronRunnable σ} {ds : Dataset} (h : (c.sync S ds).2 = true) :
  ((c.sync S ds).1.entries ds.key).map (·.schedule) = wanted (some ds)
  := by
  simp only [CronRunnable.sync] at h ⊢
  split_ifs at h ⊢ with hempty hsame
  · rw [wanted_eq_none hempty, entries_drop, Function.update_self]
    rfl
  · rw [wanted_eq_some hempty]
    exact hsame
  · rw [wanted_eq_some hempty]
    cases hadd : S.addFunc (((c.init S).drop S ds.key).cron.getD S.new) ds.schedule ds with
    | none => simp [CronRunnable.add, hadd] at h
    | some r => simp only [CronRunnable.add, hadd, Function.update_self, Option.map_some]

/-- A sync leaves the entry that the dataset wants if it is there already. -/
theorem entries_sync_same {c : CronRunnable σ} {ds : Dataset}
    (h : (c.entries ds.key).map (·.schedule) = wanted (some ds)) :
  ((c.sync S ds).1.entries ds.key).map (·.schedule) = wanted (some ds)
  := by
  apply entries_sync
  simp only [CronRunnable.sync]
  split_ifs with hempty hsame
  · rfl
  · rfl
  · rw [wanted_eq_some hempty] at h
    exact absurd h hsame

/-! ### The cluster -/

/-- The control plane: the datasets in its cache, those whose reconcile is pending, what the
worker is reconciling with the object that it has got, what `Start` has listed and not come
to yet, and the runnable. -/
structure Cluster (σ : Type) where
  datasets : NamespacedName → Option Dataset
  queue : NamespacedName → Bool
  processing : Option (NamespacedName × Option Dataset)
  listed : List Dataset
  runnable : CronRunnable σ

inductive Action where
  | edit (key : NamespacedName) (ds : Option Dataset)
  | get (key : NamespacedName)
  | finish (fails : Bool)
  | list (items : List Dataset)
  | catchUp
  | restart

/-- Sync what the worker has got, or forget it; a reconcile that fails is made again. -/
def Cluster.finish (S : Scheduler σ) (s : Cluster σ) (fails : Bool) (key : NamespacedName) :
    Option Dataset → Cluster σ
  | none => { s with processing := none, runnable := s.runnable.forget S key }
  | some ds =>
    let (runnable, ok) := s.runnable.sync S ds
    { s with
      processing := none
      queue := if ok ∧ ¬ fails then s.queue else Function.update s.queue key true
      runnable }

/-- A step of the control plane, if it is enabled: an object is created, changed or deleted;
the worker gets the object of a pending reconcile; it finishes, and may fail after the sync;
`Start` lists the datasets, and comes to the next one; and the process dies and starts again,
with all objects pending. -/
def step (S : Scheduler σ) (s : Cluster σ) : Action → Option (Cluster σ)
  | .edit key ds =>
    if ∀ d ∈ ds, d.key = key then
      some
        { s with
          datasets := Function.update s.datasets key ds
          queue := Function.update s.queue key true }
    else none
  | .get key =>
    if s.queue key ∧ s.processing.isNone then
      some
        { s with
          queue := Function.update s.queue key false
          processing := some (key, s.datasets key) }
    else none
  | .finish fails => s.processing.map fun p => s.finish S fails p.1 p.2
  | .list items =>
    if s.listed = [] ∧ ∀ ds ∈ items, s.datasets ds.key = some ds then
      some { s with listed := items, runnable := s.runnable.init S }
    else none
  | .catchUp =>
    match s.listed with
    | [] => none
    | ds :: rest => some { s with listed := rest, runnable := (s.runnable.sync S ds).1 }
  | .restart =>
    some
      { s with
        queue := fun key => (s.datasets key).isSome
        processing := none
        listed := []
        runnable := .zero }

/-- Nothing is there. -/
def Cluster.empty : Cluster σ := ⟨fun _ => none, fun _ => false, none, [], .zero⟩

/-- The clusters that are reached in steps that are `allowed`. -/
inductive Reached (S : Scheduler σ) (allowed : Cluster σ → Action → Prop) : Cluster σ → Prop
  | init : Reached S allowed .empty
  | step {s s' : Cluster σ} (a : Action) (hs : Reached S allowed s) (ha : allowed s a)
      (h : step S s a = some s') : Reached S allowed s'

/-- A dataset that `Start` comes to is as it was listed. -/
def Current (s : Cluster σ) : Action → Prop
  | .catchUp => ∀ ds ∈ s.listed.head?, s.datasets ds.key = some ds
  | _ => True

instance (s : Cluster σ) (a : Action) : Decidable (Current s a) :=
  match a with
  | .catchUp => inferInstanceAs (Decidable (∀ ds ∈ s.listed.head?, s.datasets ds.key = some ds))
  | .edit _ _ | .get _ | .finish _ | .list _ | .restart => inferInstanceAs (Decidable True)

/-! ### Settled datasets -/

/-- No reconcile of the dataset is pending or under way. -/
def Cluster.Idle (s : Cluster σ) (key : NamespacedName) : Prop :=
  s.queue key = false ∧ ∀ p ∈ s.processing, p.1 ≠ key

/-- What holds of a cluster: an idle dataset has the entry that it wants, and what the worker
has got is the object, unless another reconcile is pending. -/
structure ClusterInv (S : Scheduler σ) (s : Cluster σ) : Prop where
  table : TableInv S s.runnable
  keys : ∀ key, ∀ ds ∈ s.datasets key, ds.key = key
  got : ∀ key cr, s.processing = some (key, cr) →
    (∀ ds ∈ cr, ds.key = key) ∧ (s.queue key = false → cr = s.datasets key)
  settled : ∀ key, s.Idle key →
    (s.runnable.entries key).map (·.schedule) = wanted (s.datasets key)

section

variable {s : Cluster σ}

/-- In every step of the cluster, the table and the scheduler go on to agree. -/
theorem TableInv.step (hS : S.Lawful) (h : TableInv S s.runnable) {s' : Cluster σ} {a : Action}
    (hstep : step S s a = some s') :
  TableInv S s'.runnable
  := by
  cases a with
  | edit key ds =>
    simp only [Cron.step] at hstep
    split_ifs at hstep
    cases hstep
    exact h
  | get key =>
    simp only [Cron.step] at hstep
    split_ifs at hstep
    cases hstep
    exact h
  | finish fails =>
    obtain ⟨⟨key, cr⟩, -, rfl⟩ := Option.map_eq_some_iff.1 hstep
    cases cr with
    | none => exact h.drop hS key
    | some ds => exact h.sync hS ds
  | list items =>
    simp only [Cron.step] at hstep
    split_ifs at hstep
    cases hstep
    exact h.init hS
  | catchUp =>
    simp only [Cron.step] at hstep
    split at hstep
    · cases hstep
    · cases hstep
      exact h.sync hS _
  | restart =>
    cases hstep
    exact .zero

theorem Reached.table (hS : S.Lawful) {allowed : Cluster σ → Action → Prop}
    (hs : Reached S allowed s) :
  TableInv S s.runnable
  := by
  induction hs with
  | init => exact .zero
  | step a hs ha h ih => exact ih.step hS h

/-- In every run, a dataset has one job at most. -/
theorem length_jobs_le_one (hS : S.Lawful) {allowed : Cluster σ → Action → Prop}
    (hs : Reached S allowed s) (key : NamespacedName) :
  ((s.runnable.jobs S).filter (·.ds.key = key)).length ≤ 1
  := by
  have hlen := congrArg List.length ((hs.table hS).jobs_of_key key)
  rw [List.length_map] at hlen
  rw [hlen]
  cases (s.runnable.entries key).map (·.schedule) <;> simp

/-- The end of a reconcile keeps the invariant: the dataset has the entry that the object
wants, or is queued again. -/
theorem ClusterInv.finish (hS : S.Lawful) (h : ClusterInv S s) {key : NamespacedName}
    {cr : Option Dataset} (hgot : s.processing = some (key, cr)) (fails : Bool) :
  ClusterInv S (s.finish S fails key cr)
  := by
  obtain ⟨hkey, hcr⟩ := h.got key cr hgot
  have hidle {key' : NamespacedName} (hne : key' ≠ key) (hqueue : s.queue key' = false) :
      s.Idle key' := by
    refine ⟨hqueue, fun p hp heq => hne ?_⟩
    rw [hgot] at hp
    cases hp
    exact heq.symm
  cases cr with
  | none =>
    refine ⟨h.table.drop hS key, h.keys, fun _ _ hp => (by cases hp), fun key' h' => ?_⟩
    have hentries : (s.runnable.forget S key).entries = Function.update s.runnable.entries key none :=
      entries_drop _ _
    simp only [Cluster.finish, hentries]
    by_cases hne : key' = key
    · subst hne
      rw [Function.update_self, ← hcr h'.1]
      rfl
    · rw [Function.update_of_ne hne]
      exact h.settled key' (hidle hne h'.1)
  | some ds =>
    have hds : ds.key = key := hkey ds rfl
    refine ⟨h.table.sync hS ds, h.keys, fun _ _ hp => (by cases hp), fun key' h' => ?_⟩
    have hqueue := h'.1
    simp only [Cluster.finish] at hqueue ⊢
    by_cases hne : key' = key
    · subst hne
      split_ifs at hqueue with hok
      · rw [← hcr hqueue, ← hds]
        exact entries_sync hok.1
      · rw [Function.update_self] at hqueue
        cases hqueue
    · rw [entries_sync_of_ne _ (by rwa [hds])]
      refine h.settled key' (hidle hne ?_)
      split_ifs at hqueue
      · exact hqueue
      · rwa [Function.update_of_ne hne] at hqueue

/-- Every step keeps the invariant: an edit and a resync make their dataset pending, and the
worker settles the dataset that it has processed, with the object that it got. -/
theorem ClusterInv.step (hS : S.Lawful) (h : ClusterInv S s) {s' : Cluster σ} {a : Action}
    (ha : Current s a) (hstep : step S s a = some s') :
  ClusterInv S s'
  := by
  have htable := h.table.step hS hstep
  cases a with
  | edit key ds =>
    simp only [Cron.step] at hstep
    split_ifs at hstep with hkey
    cases hstep
    refine ⟨htable, fun key' d hd => ?_, fun key' cr hp => ?_, fun key' h' => ?_⟩
    · by_cases hne : key' = key
      · subst hne
        exact hkey d (by simpa using hd)
      · exact h.keys key' d (by simpa [Function.update_of_ne hne] using hd)
    · obtain ⟨hcr, hgot⟩ := h.got key' cr hp
      refine ⟨hcr, fun hqueue => ?_⟩
      dsimp only at hqueue ⊢
      by_cases hne : key' = key
      · subst hne
        simp at hqueue
      · rw [Function.update_of_ne hne] at hqueue
        simpa [Function.update_of_ne hne] using hgot hqueue
    · obtain ⟨hqueue, hprocessing⟩ := h'
      dsimp only at hqueue ⊢
      by_cases hne : key' = key
      · subst hne
        simp at hqueue
      · rw [Function.update_of_ne hne] at hqueue
        simpa [Function.update_of_ne hne] using h.settled key' ⟨hqueue, hprocessing⟩
  | get key =>
    simp only [Cron.step] at hstep
    split_ifs at hstep with hget
    cases hstep
    refine ⟨htable, h.keys, fun key' cr hp => ?_, fun key' h' => ?_⟩
    · obtain ⟨rfl, rfl⟩ := Prod.mk.inj (Option.some.inj hp)
      exact ⟨h.keys key, fun _ => rfl⟩
    · obtain ⟨hqueue, hprocessing⟩ := h'
      have hne : key' ≠ key := (hprocessing _ rfl).symm
      dsimp only at hqueue
      rw [Function.update_of_ne hne] at hqueue
      refine h.settled key' ⟨hqueue, fun p hp => ?_⟩
      rw [Option.isNone_iff_eq_none.1 hget.2] at hp
      cases hp
  | finish fails =>
    obtain ⟨⟨key, cr⟩, hgot, rfl⟩ := Option.map_eq_some_iff.1 hstep
    exact h.finish hS hgot fails
  | list items =>
    simp only [Cron.step] at hstep
    split_ifs at hstep
    cases hstep
    exact ⟨htable, h.keys, h.got, h.settled⟩
  | catchUp =>
    simp only [Cron.step] at hstep
    split at hstep
    · cases hstep
    next ds rest hlisted =>
      cases hstep
      refine ⟨htable, h.keys, h.got, fun key h' => ?_⟩
      have hsettled := h.settled key h'
      by_cases hkey : key = ds.key
      · subst hkey
        have hds : s.datasets ds.key = some ds := ha ds (by simp [hlisted])
        rw [hds] at hsettled ⊢
        exact entries_sync_same hsettled
      · rw [entries_sync_of_ne _ hkey]
        exact hsettled
  | restart =>
    cases hstep
    refine ⟨htable, h.keys, fun _ _ hp => (by cases hp), fun key h' => ?_⟩
    have hnone : s.datasets key = none := by
      cases hcr : s.datasets key with
      | none => rfl
      | some ds =>
        have hqueue := h'.1
        simp [hcr] at hqueue
    simp [hnone, CronRunnable.zero, wanted]

/-- The invariant holds after any run of the cluster. -/
theorem Reached.inv (hS : S.Lawful) (hs : Reached S Current s) :
  ClusterInv S s
  := by
  induction hs with
  | init =>
    exact
      { table := .zero
        keys := by simp [Cluster.empty]
        got := by simp [Cluster.empty]
        settled := by simp [Cluster.empty, CronRunnable.zero, wanted] }
  | step a hs ha h ih => exact ih.step hS ha h

/-- In every run, as long as the datasets that `Start` comes to are as they were listed: a
dataset whose reconcile is neither pending nor under way has one job, on the schedule of the
object, or no job if there is no object or no schedule. -/
theorem jobs_of_idle (hS : S.Lawful) (hs : Reached S Current s) {key : NamespacedName}
    (hkey : s.Idle key) :
  ((s.runnable.jobs S).filter (·.ds.key = key)).map (·.schedule) = (wanted (s.datasets key)).toList
  := by
  have h := hs.inv hS
  rw [h.table.jobs_of_key, h.settled key hkey]

end

/-! ### Two runs -/

/-- The jobs in the order in which they were added, with IDs that are counted. -/
structure JobList where
  nextID : Nat
  jobs : List Job
  bounded : ∀ j ∈ jobs, j.id ≤ nextID

def JobList.add (c : JobList) (spec : String) (ds : Dataset) : JobList where
  nextID := c.nextID + 1
  jobs := ⟨c.nextID + 1, spec, ds⟩ :: c.jobs
  bounded := by
    intro j hj
    obtain rfl | hj := List.mem_cons.1 hj
    · exact Nat.le_refl _
    · exact Nat.le_succ_of_le (c.bounded j hj)

def JobList.remove (c : JobList) (id : Nat) : JobList where
  nextID := c.nextID
  jobs := c.jobs.filter (·.id ≠ id)
  bounded j hj := c.bounded j (List.mem_of_mem_filter hj)

/-- A scheduler that knows one schedule. -/
def hourly : Scheduler JobList where
  new := ⟨0, [], by simp⟩
  addFunc c spec ds := if spec = "@hourly" then some (c.nextID + 1, c.add spec ds) else none
  remove := JobList.remove
  jobs := JobList.jobs

/-- The scheduler of the examples does what is asked of one. -/
theorem hourly_lawful :
  hourly.Lawful
  where
  jobs_new := rfl
  fresh c spec ds r h j hj := by
    simp only [hourly] at h hj
    split_ifs at h
    cases h
    have := c.bounded j hj
    dsimp only
    omega
  jobs_addFunc c spec ds r h := by
    simp only [hourly] at h
    split_ifs at h
    cases h
    exact .refl _
  jobs_remove c id := .refl _

def users : Dataset := ⟨⟨"default", "users"⟩, "1", 4, some ⟨some ⟨"@hourly"⟩⟩⟩

section

variable {allowed : Cluster JobList → Action → Prop} [∀ s a, Decidable (allowed s a)]

/-- The steps, one after the other, if each is allowed and enabled. -/
def run (allowed : Cluster JobList → Action → Prop) [∀ s a, Decidable (allowed s a)]
    (s : Cluster JobList) (as : List Action) : Option (Cluster JobList) :=
  as.foldlM (fun s a => if allowed s a then step hourly s a else none) s

/-- A run of steps from a state that can be reached reaches another. -/
theorem Reached.run {s s' : Cluster JobList} (hs : Reached hourly allowed s) {as : List Action}
    (h : run allowed s as = some s') :
  Reached hourly allowed s'
  := by
  induction as generalizing s with
  | nil =>
    cases h
    exact hs
  | cons a as ih =>
    obtain ⟨s₁, hstep, hrun⟩ := Option.bind_eq_some_iff.1 h
    dsimp only at hstep
    split_ifs at hstep with ha
    exact ih (hs.step a ha hstep) hrun

end

/-- The dataset gets another schedule while the worker reconciles it, and is reconciled again;
then `Start` comes to it. -/
def rescheduled : List Action :=
  [.edit users.key (some { users with trigger := none }), .get users.key,
    .edit users.key (some users), .finish false, .list [users], .get users.key, .finish true,
    .get users.key, .finish false, .catchUp]

theorem jobs_of_idle_users :
  ∃ s, run Current .empty rescheduled = some s
    ∧ ((s.runnable.jobs hourly).filter (·.ds.key = users.key)).map (·.schedule)
      = (wanted (s.datasets users.key)).toList
  := by
  have h : ((run Current .empty rescheduled).any
      fun s => !s.queue users.key && s.processing.isNone) = true := by
    decide
  obtain ⟨s, hs, hidle⟩ := (Option.any_eq_true _ _).1 h
  simp only [Bool.and_eq_true, Bool.not_eq_true', Option.isNone_iff_eq_none] at hidle
  refine ⟨s, hs, jobs_of_idle hourly_lawful (.run .init hs) ⟨hidle.1, fun p hp => ?_⟩⟩
  rw [hidle.2] at hp
  cases hp

/-- The dataset is deleted, and its reconcile is over, before `Start` comes to it. -/
def deletedMeanwhile : List Action :=
  [.edit users.key (some users), .list [users], .get users.key, .finish false,
    .edit users.key none, .get users.key, .finish false, .catchUp]

theorem length_jobs_le_one_users :
  ∃ s, run (fun _ _ => True) .empty deletedMeanwhile = some s
    ∧ ((s.runnable.jobs hourly).filter (·.ds.key = users.key)).length ≤ 1
  := by
  have h : (run (fun _ _ => True) .empty deletedMeanwhile).isSome = true := by
    decide
  obtain ⟨s, hs⟩ := Option.isSome_iff_exists.1 h
  exact ⟨s, hs, length_jobs_le_one hourly_lawful (.run .init hs) users.key⟩

/-- A dataset that `Start` has listed and that is deleted then keeps a job. -/
theorem job_of_deleted :
  ∃ s : Cluster JobList, Reached hourly (fun _ _ => True) s ∧ s.Idle users.key
    ∧ s.datasets users.key = none ∧ ∃ j ∈ s.runnable.jobs hourly, j.ds = users
  := by
  have h : ((run (fun _ _ => True) .empty deletedMeanwhile).any fun s =>
      !s.queue users.key && s.processing.isNone && (s.datasets users.key).isNone
        && (s.runnable.jobs hourly).any (·.ds = users)) = true := by
    decide
  obtain ⟨s, hs, h⟩ := (Option.any_eq_true _ _).1 h
  simp only [Bool.and_eq_true, Bool.not_eq_true', Option.isNone_iff_eq_none, List.any_eq_true,
    decide_eq_true_eq] at h
  obtain ⟨⟨⟨hqueue, hprocessing⟩, hdatasets⟩, hjob⟩ := h
  refine ⟨s, .run .init hs, ⟨hqueue, fun p hp => ?_⟩, hdatasets, hjob⟩
  rw [hprocessing] at hp
  cases hp

end ControlPlane.Cron
