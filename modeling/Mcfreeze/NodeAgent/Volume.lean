import Mathlib.Data.List.DropRight
import Mathlib.Logic.Function.Basic

/-!
# Volume attachments

`K8sManager` (`nodeagent/volume/k8s.go`) attaches a disk by creating a `VolumeAttachment`
whose name is computed from the name of the volume alone, takes an existing object of that
name for its own, and detaches by deleting the name.

The attachments of different nodes and volumes do not get in each other's way exactly when
no two of them have the same object name.
-/

namespace NodeAgent

/-! ### Names -/

/-- `strings.ToLower`, of one rune: beside the capital letters of ASCII only the Kelvin sign
and the dotted capital I have a lower-case letter of ASCII; other runes stay outside. -/
def toLower (r : Char) : Char :=
  if 'A' ≤ r ∧ r ≤ 'Z' then Char.ofNat (r.toNat + 32)
  else if r = '\u212A' then 'k'
  else if r = '\u0130' then 'i'
  else r

/-- Keep lower-case letters and digits, and put one hyphen for each stretch of other
runes. -/
def sanitize : Bool → List Char → List Char
  | _, [] => []
  | prevHyphen, r :: rest =>
    if 'a' ≤ r ∧ r ≤ 'z' ∨ '0' ≤ r ∧ r ≤ '9' then r :: sanitize false rest
    else if prevHyphen then sanitize true rest
    else '-' :: sanitize true rest

/-- The name of the attachment of a volume. -/
def vaName (pvName : String) : String :=
  let name := "mcf-va-".toList ++ pvName.toList.map toLower
  String.ofList (((sanitize false name).take 253).rdropWhile (· = '-'))

example : vaName "Disk.1" = "mcf-va-disk-1" ∧ vaName "disk-1" = "mcf-va-disk-1" := by decide

/-! ### The manager -/

structure VolumeAttachment where
  attacher : String
  persistentVolumeName : String
  nodeName : String
  deriving DecidableEq, Repr

/-- The attachments in the API server, by name. -/
abbrev Attachments := String → Option VolumeAttachment

/-- What a call to the API server returns. -/
inductive ApiError where
  | alreadyExists
  | notFound
  | other (message : String)
  deriving DecidableEq, Repr

/-- Create an object; `failure` is a failure that has nothing to do with the name. -/
def create (name : String) (va : VolumeAttachment) (failure : Option String) (vas : Attachments) :
    Except ApiError Unit × Attachments :=
  match failure, vas name with
  | some message, _ => (.error (.other message), vas)
  | none, some _ => (.error .alreadyExists, vas)
  | none, none => (.ok (), Function.update vas name (some va))

/-- Delete an object by its name. -/
def delete (name : String) (failure : Option String) (vas : Attachments) :
    Except ApiError Unit × Attachments :=
  match failure, vas name with
  | some message, _ => (.error (.other message), vas)
  | none, none => (.error .notFound, vas)
  | none, some _ => (.ok (), Function.update vas name none)

/-- `AttachDisk`: an attachment that exists already is taken for success. -/
def attachDisk (csiDriver nodeName pvName : String) (failure : Option String) (vas : Attachments) :
    Except ApiError Unit × Attachments :=
  match create (vaName pvName) ⟨csiDriver, pvName, nodeName⟩ failure vas with
  | (.error .alreadyExists, vas) => (.ok (), vas)
  | r => r

/-- `DetachDisk`: an attachment that does not exist is taken for success. -/
def detachDisk (pvName : String) (failure : Option String) (vas : Attachments) :
    Except ApiError Unit × Attachments :=
  match delete (vaName pvName) failure vas with
  | (.error .notFound, vas) => (.ok (), vas)
  | r => r

/-! ### Several nodes -/

/-- The API server, and the nodes and volumes for which `AttachDisk` has succeeded and
`DetachDisk` was not called since. -/
structure Cluster where
  vas : Attachments
  held : List (String × String)

/-- A call of the manager of some node. -/
inductive VolumeCall where
  | attach (nodeName pvName : String) (failure : Option String)
  | detach (nodeName pvName : String) (failure : Option String)

/-- The node and the volume of a call. -/
def VolumeCall.target : VolumeCall → String × String
  | .attach nodeName pvName _ => (nodeName, pvName)
  | .detach nodeName pvName _ => (nodeName, pvName)

/-- The cluster after a call. -/
def Cluster.call (csiDriver : String) (c : Cluster) : VolumeCall → Cluster
  | .attach nodeName pvName failure =>
    match attachDisk csiDriver nodeName pvName failure c.vas with
    | (.ok _, vas) => ⟨vas, (nodeName, pvName) :: c.held⟩
    | (.error _, vas) => { c with vas := vas }
  | .detach nodeName pvName failure =>
    ⟨(detachDisk pvName failure c.vas).2, c.held.filter (· ≠ (nodeName, pvName))⟩

/-- The clusters reached by calls for nodes and volumes in `used`. -/
inductive Cluster.Reachable (csiDriver : String) (used : String × String → Prop) : Cluster → Prop where
  | init : Reachable csiDriver used ⟨fun _ => none, []⟩
  | call {c} (call : VolumeCall) : Reachable csiDriver used c → used call.target →
      Reachable csiDriver used (c.call csiDriver call)

/-- Every disk that is held has an attachment of its node and volume, and a detach removes
no attachment of another node or volume. -/
def BelongsToOne (csiDriver : String) (used : String × String → Prop) (c : Cluster) : Prop :=
  (∀ x ∈ c.held, ∃ name va, c.vas name = some va ∧ va.nodeName = x.1 ∧ va.persistentVolumeName = x.2)
    ∧ ∀ nodeName pvName failure, used (nodeName, pvName) → ∀ name va, c.vas name = some va →
      (c.call csiDriver (.detach nodeName pvName failure)).vas name ≠ some va →
      va.nodeName = nodeName ∧ va.persistentVolumeName = pvName

section

variable {csiDriver nodeName pvName : String} {failure : Option String} (vas : Attachments)

/-- The outcomes of an attach: it fails, the name exists, or an attachment is created. -/
theorem attachDisk_cases :
  (∃ e, attachDisk csiDriver nodeName pvName failure vas = (.error e, vas))
    ∨ (∃ va, vas (vaName pvName) = some va)
      ∧ attachDisk csiDriver nodeName pvName failure vas = (.ok (), vas)
    ∨ vas (vaName pvName) = none
      ∧ attachDisk csiDriver nodeName pvName failure vas
        = (.ok (), Function.update vas (vaName pvName) (some ⟨csiDriver, pvName, nodeName⟩))
  := by
  unfold attachDisk create
  cases failure with
  | some message =>
    left
    exact ⟨_, rfl⟩
  | none =>
    right
    cases h : vas (vaName pvName) with
    | some va =>
      left
      exact ⟨⟨va, rfl⟩, rfl⟩
    | none =>
      right
      exact ⟨rfl, rfl⟩

/-- A detach changes nothing, or removes the attachment of the volume's name. -/
theorem detachDisk_cases :
  (detachDisk pvName failure vas).2 = vas
    ∨ (detachDisk pvName failure vas).2 = Function.update vas (vaName pvName) none
  := by
  unfold detachDisk delete
  cases failure with
  | some message =>
    left
    dsimp only
  | none =>
    cases h : vas (vaName pvName) with
    | none =>
      left
      dsimp only
    | some va =>
      right
      dsimp only

end

variable {csiDriver : String} {used : String × String → Prop}

/-- No two nodes and volumes in use have the same object name. -/
def NamesDistinct (used : String × String → Prop) : Prop :=
  ∀ x y, used x → used y → vaName x.2 = vaName y.2 → x = y

/-- The invariant: an attachment has the name of its volume and is in use, and what is held
has an attachment under its name. -/
structure Cluster.Inv (used : String × String → Prop) (c : Cluster) : Prop where
  named : ∀ name va, c.vas name = some va →
    name = vaName va.persistentVolumeName ∧ used (va.nodeName, va.persistentVolumeName)
  held : ∀ x ∈ c.held, used x ∧ ∃ va, c.vas (vaName x.2) = some va
    ∧ va.nodeName = x.1 ∧ va.persistentVolumeName = x.2

/-- An attach keeps the invariant. -/
theorem Cluster.Inv.attach {c : Cluster} (h : c.Inv used) (hnames : NamesDistinct used)
    {nodeName pvName : String} (failure : Option String) (hused : used (nodeName, pvName)) :
  (c.call csiDriver (.attach nodeName pvName failure)).Inv used
  := by
  rw [Cluster.call]
  rcases attachDisk_cases c.vas with ⟨e, heq⟩ | ⟨⟨va, hva⟩, heq⟩ | ⟨hnone, heq⟩
  · rw [heq]
    exact ⟨h.named, h.held⟩
  · rw [heq]
    refine ⟨h.named, ?_⟩
    intro x hx
    rcases List.mem_cons.mp hx with rfl | hx
    · obtain ⟨hname, hva'⟩ := h.named _ _ hva
      have hsame := hnames _ _ hused hva' hname
      refine ⟨hused, va, hva, ?_, ?_⟩
      · exact (congrArg Prod.fst hsame).symm
      · exact (congrArg Prod.snd hsame).symm
    · apply h.held x hx
  · rw [heq]
    dsimp only
    refine ⟨?_, ?_⟩
    · intro name va hva
      dsimp only at hva
      by_cases hname : name = vaName pvName
      · rw [hname, Function.update_self] at hva
        obtain rfl := Option.some.inj hva
        exact ⟨hname, hused⟩
      · rw [Function.update_of_ne hname] at hva
        apply h.named name va hva
    · intro x hx
      rcases List.mem_cons.mp hx with rfl | hx
      · refine ⟨hused, ⟨csiDriver, pvName, nodeName⟩, ?_, rfl, rfl⟩
        dsimp only
        rw [Function.update_self]
      · obtain ⟨hx', va, hva, hbelongs⟩ := h.held x hx
        refine ⟨hx', va, ?_, hbelongs⟩
        dsimp only
        rw [Function.update_of_ne]
        · apply hva
        · intro hname
          rw [hname, hnone] at hva
          simp at hva

/-- A detach keeps the invariant. -/
theorem Cluster.Inv.detach {c : Cluster} (h : c.Inv used) (hnames : NamesDistinct used)
    {nodeName pvName : String} (failure : Option String) (hused : used (nodeName, pvName)) :
  (c.call csiDriver (.detach nodeName pvName failure)).Inv used
  := by
  have hheld : ∀ x ∈ c.held.filter (· ≠ (nodeName, pvName)), x ∈ c.held ∧ x ≠ (nodeName, pvName) := by
    intro x hx
    simpa using List.mem_filter.mp hx
  rw [Cluster.call]
  rcases detachDisk_cases c.vas with heq | heq
  · rw [heq]
    refine ⟨h.named, ?_⟩
    intro x hx
    apply h.held x (hheld x hx).1
  · rw [heq]
    refine ⟨?_, ?_⟩
    · intro name va hva
      dsimp only at hva
      by_cases hname : name = vaName pvName
      · rw [hname, Function.update_self] at hva
        simp at hva
      · rw [Function.update_of_ne hname] at hva
        apply h.named name va hva
    · intro x hx
      obtain ⟨hmem, hne⟩ := hheld x hx
      obtain ⟨hx', va, hva, hbelongs⟩ := h.held x hmem
      refine ⟨hx', va, ?_, hbelongs⟩
      dsimp only
      rw [Function.update_of_ne]
      · apply hva
      · intro hname
        apply hne (hnames _ _ hx' hused hname)

/-- The invariant holds after any calls, when the attachments of distinct volumes have distinct
names. -/
theorem Cluster.Reachable.inv {c : Cluster} (hnames : NamesDistinct used)
    (h : Cluster.Reachable csiDriver used c) :
  c.Inv used
  := by
  induction h with
  | init =>
    refine ⟨?_, ?_⟩
    · intro name va hva
      simp at hva
    · intro x hx
      simp at hx
  | call call _ hused ih =>
    cases call with
    | attach nodeName pvName failure => apply ih.attach hnames failure hused
    | detach nodeName pvName failure => apply ih.detach hnames failure hused

/-- In every interleaving of calls an attachment belongs to one node and one volume, exactly
if no two nodes and volumes in use have the same object name. -/
theorem belongsToOne_iff (csiDriver : String) (used : String × String → Prop) :
  (∀ c, Cluster.Reachable csiDriver used c → BelongsToOne csiDriver used c) ↔ NamesDistinct used
  := by
  constructor
  · rintro h ⟨n, p⟩ ⟨n', p'⟩ hx hy hname
    have hfirst : Cluster.Reachable csiDriver used _ := .call (.attach n p none) .init hx
    have hsecond : Cluster.Reachable csiDriver used _ := .call (.attach n' p' none) hfirst hy
    have hafter : Cluster.call csiDriver (Cluster.call csiDriver ⟨fun _ => none, []⟩ (.attach n p none))
        (.attach n' p' none)
        = ⟨Function.update (fun _ => none) (vaName p) (some ⟨csiDriver, p, n⟩), [(n', p'), (n, p)]⟩ := by
      simp [Cluster.call, attachDisk, create, ← show vaName p = vaName p' from hname]
    rw [hafter] at hsecond
    obtain ⟨name, va, hva, hnode, hpv⟩ := (h _ hsecond).1 (n', p') List.mem_cons_self
    by_cases heq : name = vaName p
    · rw [heq] at hva
      dsimp only at hva
      rw [Function.update_self] at hva
      obtain rfl := Option.some.inj hva
      rw [Prod.mk.injEq]
      exact ⟨hnode, hpv⟩
    · dsimp only at hva
      rw [Function.update_of_ne heq] at hva
      simp at hva
  · intro hnames c hc
    have hinv := hc.inv hnames
    refine ⟨?_, ?_⟩
    · intro x hx
      obtain ⟨-, va, hva, hbelongs⟩ := hinv.held x hx
      exact ⟨_, va, hva, hbelongs⟩
    · intro nodeName pvName failure hused name va hva hremoved
      obtain ⟨hname, hva'⟩ := hinv.named name va hva
      rw [Cluster.call] at hremoved
      rcases detachDisk_cases c.vas with heq | heq
      · rw [heq] at hremoved
        exact absurd hva hremoved
      · rw [heq] at hremoved
        by_cases hpv : name = vaName pvName
        · have hsame := hnames _ _ hva' hused (hname.symm.trans hpv)
          exact ⟨congrArg Prod.fst hsame, congrArg Prod.snd hsame⟩
        · dsimp only at hremoved
          rw [Function.update_of_ne hpv] at hremoved
          exact absurd hva hremoved

/-- Two nodes that serve the same volume: the second attach finds the attachment of the
first. -/
theorem not_belongsToOne_sharedVolume :
  ¬ ∀ used c, Cluster.Reachable "pd.csi.storage.gke.io" used c →
    BelongsToOne "pd.csi.storage.gke.io" used c
  := by
  intro h
  have hfirst : Cluster.Reachable "pd.csi.storage.gke.io" (fun _ => True) _ :=
    .call (.attach "node-a" "pvc-1" none) .init trivial
  have hsecond : Cluster.Reachable "pd.csi.storage.gke.io" (fun _ => True) _ :=
    .call (.attach "node-b" "pvc-1" none) hfirst trivial
  obtain ⟨name, va, hva, hnode, -⟩ := (h _ _ hsecond).1 ("node-b", "pvc-1") List.mem_cons_self
  have hvas : (Cluster.call "pd.csi.storage.gke.io" (Cluster.call "pd.csi.storage.gke.io"
        ⟨fun _ => none, []⟩ (.attach "node-a" "pvc-1" none)) (.attach "node-b" "pvc-1" none)).vas
      = Function.update (fun _ => none) (vaName "pvc-1")
        (some ⟨"pd.csi.storage.gke.io", "pvc-1", "node-a"⟩) := by
    simp [Cluster.call, attachDisk, create]
  rw [hvas] at hva
  by_cases heq : name = vaName "pvc-1"
  · rw [heq, Function.update_self] at hva
    obtain rfl := Option.some.inj hva
    revert hnode
    decide
  · rw [Function.update_of_ne heq] at hva
    simp at hva

end NodeAgent
