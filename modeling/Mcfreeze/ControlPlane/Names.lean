import Mcfreeze.ControlPlane.Job
import Mcfreeze.ControlPlane.Controllers

/-!
# Names of builds

The objects of a build, its `DatasetVersion`, Job, `ConfigMap` and claim, have names that are
computed from the name of the dataset and the version ID (`convert.go`, `builder/job.go`).
Whoever creates one of them takes an object of that name that exists already for its own.

A name keeps only the words of the dataset and of the version, which are their stretches of
letters and digits, so that it does not tell where the dataset ends and the version begins.
-/

namespace ControlPlane

open NodeAgent (toLower sanitize)
open ApiServer (versionCRName)

/-! ### Names -/

def jobName (dataset versionID : String) : String :=
  resourceName "mcf-build" dataset versionID

def configMapName (dataset versionID : String) : String :=
  resourceName "mcf-config" dataset versionID

/-- The names that the build endpoint accepts. -/
def isValidName (s : String) : Bool :=
  s ≠ "" && s.toList.all fun r =>
    ('a' ≤ r && r ≤ 'z') || ('0' ≤ r && r ≤ '9') || r = '-' || r = '_' || r = '.'

/-! ### Words -/

/-- A lower-case letter or a digit. -/
def IsAlnum (r : Char) : Prop :=
  'a' ≤ r ∧ r ≤ 'z' ∨ '0' ≤ r ∧ r ≤ '9'

instance (r : Char) : Decidable (IsAlnum r) :=
  inferInstanceAs (Decidable (_ ∨ _))

/-- The words of a text, of which the first goes on from `word`. -/
def wordsFrom (word : List Char) : List Char → List (List Char)
  | [] => if word = [] then [] else [word]
  | r :: rest =>
    if IsAlnum r then wordsFrom (word ++ [r]) rest
    else if word = [] then wordsFrom [] rest
    else word :: wordsFrom [] rest

/-- The stretches of letters and digits of a text. -/
def words (s : String) : List (List Char) :=
  wordsFrom [] s.toList

/-- Drop the hyphens at the end. -/
def trimHyphens (l : List Char) : List Char :=
  l.rdropWhile (· = '-')

/-- The words of a build, with a hyphen between two of them, as far as there is room for
them. -/
def buildWords (room : Nat) (dataset versionID : String) : List Char :=
  trimHyphens ((['-'].intercalate (words dataset ++ words versionID)).take room)

/-- The words of two names with a hyphen between are those of the one and those of the other. -/
theorem wordsFrom_append (word d v : List Char) :
  wordsFrom word (d ++ '-' :: v) = wordsFrom word d ++ wordsFrom [] v
  := by
  induction d generalizing word with
  | nil =>
    by_cases hword : word = []
    · simp [wordsFrom, hword, show ¬ IsAlnum '-' by decide]
    · simp [wordsFrom, hword, show ¬ IsAlnum '-' by decide]
  | cons r d ih =>
    rw [List.cons_append, wordsFrom, wordsFrom]
    by_cases hr : IsAlnum r
    · rw [if_pos hr, if_pos hr, ih]
    · rw [if_neg hr, if_neg hr]
      by_cases hword : word = []
      · rw [if_pos hword, if_pos hword, ih]
      · rw [if_neg hword, if_neg hword, ih, List.cons_append]

theorem sanitize_alnum {r : Char} (prevHyphen : Bool) (l : List Char) (hr : IsAlnum r) :
  sanitize prevHyphen (r :: l) = r :: sanitize false l
  := by
  rw [sanitize]
  exact if_pos hr

theorem sanitize_other {r : Char} (prevHyphen : Bool) (l : List Char) (hr : ¬ IsAlnum r) :
  sanitize prevHyphen (r :: l) = if prevHyphen then sanitize true l else '-' :: sanitize true l
  := by
  rw [sanitize]
  exact if_neg hr

/-- What is kept of a text is its words and the hyphens between them, and perhaps hyphens at the
end. -/
theorem sanitize_eq (l : List Char) :
  (∃ n, sanitize true l = ['-'].intercalate (wordsFrom [] l) ++ .replicate n '-') ∧
    ∀ word ≠ [], ∃ n,
      word ++ sanitize false l = ['-'].intercalate (wordsFrom word l) ++ .replicate n '-'
  := by
  induction l with
  | nil =>
    constructor
    · exact ⟨0, rfl⟩
    · intro word hword
      refine ⟨0, ?_⟩
      simp [sanitize, wordsFrom, hword, List.intercalate]
  | cons r l ih =>
    obtain ⟨⟨n, hbetween⟩, hwithin⟩ := ih
    by_cases hr : IsAlnum r
    · rw [sanitize_alnum _ _ hr, sanitize_alnum _ _ hr]
      simp only [wordsFrom, if_pos hr]
      constructor
      · exact hwithin [r] (by simp)
      · intro word _
        obtain ⟨m, hm⟩ := hwithin (word ++ [r]) (by simp)
        exact ⟨m, by rw [← hm, List.append_assoc, List.singleton_append]⟩
    · rw [sanitize_other _ _ hr, sanitize_other _ _ hr]
      simp only [wordsFrom, if_neg hr]
      constructor
      · exact ⟨n, hbetween⟩
      · intro word hword
        rw [if_neg hword, if_neg Bool.false_ne_true, hbetween]
        cases wordsFrom [] l with
        | nil => exact ⟨n + 1, by simp [List.intercalate, List.replicate_succ]⟩
        | cons w ws => exact ⟨n, by simp [List.intercalate, List.intersperse]⟩

/-! ### Hyphens at the end -/

@[simp] theorem trimHyphens_replicate (l : List Char) (n : Nat) :
  trimHyphens (l ++ .replicate n '-') = trimHyphens l
  := by
  induction n with
  | zero => rw [List.replicate_zero, List.append_nil]
  | succ n ih =>
    rw [List.replicate_succ', ← List.append_assoc, trimHyphens,
      List.rdropWhile_concat_pos _ _ _ (by simp)]
    exact ih

/-- What is dropped are hyphens. -/
theorem eq_trimHyphens_append (l : List Char) :
  ∃ n, l = trimHyphens l ++ .replicate n '-'
  := by
  refine ⟨(l.rtakeWhile (· = '-')).length, ?_⟩
  rw [trimHyphens, ← List.eq_replicate_of_mem (l := l.rtakeWhile (· = '-')) (a := '-')]
  · exact (List.rdropWhile_append_rtakeWhile).symm
  · intro r hr
    simpa using List.mem_rtakeWhile_imp hr

theorem trimHyphens_take_append (l : List Char) (n k : Nat) :
  trimHyphens ((l ++ .replicate n '-').take k) = trimHyphens (l.take k)
  := by
  rw [List.take_append, List.take_replicate, trimHyphens_replicate]

/-- A shorter cut of a text is determined by a longer one. -/
theorem trimHyphens_take {l : List Char} {k m : Nat} (h : k ≤ m) :
  trimHyphens (l.take k) = trimHyphens ((trimHyphens (l.take m)).take k)
  := by
  obtain ⟨n, hn⟩ := eq_trimHyphens_append (l.take m)
  calc
    trimHyphens (l.take k) = trimHyphens ((l.take m).take k) := by
      rw [List.take_take, Nat.min_eq_left h]
    _ = trimHyphens ((trimHyphens (l.take m)).take k) := by
      conv_lhs => rw [hn]
      rw [trimHyphens_take_append]

/-- A text in front that does not end with a hyphen. -/
theorem trimHyphens_append_cons {p l : List Char} (hp : trimHyphens p = p) :
  trimHyphens (p ++ '-' :: l) = if trimHyphens l = [] then p else p ++ '-' :: trimHyphens l
  := by
  obtain ⟨n, hn⟩ := eq_trimHyphens_append l
  by_cases hl : trimHyphens l = []
  · rw [if_pos hl]
    rw [hl, List.nil_append] at hn
    have hcons : p ++ '-' :: l = p ++ .replicate (n + 1) '-' := by
      rw [hn, List.replicate_succ]
    rw [hcons, trimHyphens_replicate, hp]
  · rw [if_neg hl]
    conv_lhs => rw [hn]
    rw [← List.cons_append, ← List.append_assoc, trimHyphens_replicate]
    rw [trimHyphens, List.rdropWhile_eq_self_iff]
    intro hne
    rw [List.getLast_append_of_ne_nil _ (List.cons_ne_nil _ _), List.getLast_cons hl]
    exact List.rdropWhile_last_not _ _ hl

/-! ### Names and words -/

/-- A prefix that comes out as it is. -/
structure IsKind (kind : String) : Prop where
  lower : kind.toList.map toLower = kind.toList
  trimmed : trimHyphens kind.toList = kind.toList
  kept : ∀ rest, sanitize false (kind.toList ++ '-' :: rest) = kind.toList ++ '-' :: sanitize true rest

theorem isKind_build :
  IsKind "mcf-build"
  :=
  ⟨by decide, by decide, fun _ => rfl⟩

theorem isKind_config :
  IsKind "mcf-config"
  :=
  ⟨by decide, by decide, fun _ => rfl⟩

theorem isKind_pvc :
  IsKind "mcf-pvc"
  :=
  ⟨by decide, by decide, fun _ => rfl⟩

/-- An ASCII character that is not a letter in upper case is left as it is. -/
theorem toLower_eq {r : Char} (hr : r.toNat < 65 ∨ 90 < r.toNat) (hascii : r.toNat < 128) :
  toLower r = r
  := by
  have hcapital : ¬ ('A' ≤ r ∧ r ≤ 'Z') := by
    rintro ⟨hA, hZ⟩
    have hA : 65 ≤ r.toNat := hA
    have hZ : r.toNat ≤ 90 := hZ
    omega
  rw [toLower, if_neg hcapital, if_neg, if_neg]
  · rintro rfl
    exact absurd hascii (by decide)
  · rintro rfl
    exact absurd hascii (by decide)

/-- A valid name has no letters in upper case. -/
theorem toLower_valid {s : String} (h : isValidName s) :
  s.toList.map toLower = s.toList
  := by
  obtain ⟨_, hall⟩ := (Bool.and_eq_true_iff.mp h)
  apply (List.map_congr_left ?_).trans (List.map_id _)
  intro r hr
  have hvalid := List.all_eq_true.mp hall r hr
  simp only [Bool.or_eq_true, Bool.and_eq_true, decide_eq_true_eq] at hvalid
  rcases hvalid with (((⟨ha, hz⟩ | ⟨h0, h9⟩) | rfl) | rfl) | rfl
  · have ha : 97 ≤ r.toNat := ha
    have hz : r.toNat ≤ 122 := hz
    exact toLower_eq (by omega) (by omega)
  · have h0 : 48 ≤ r.toNat := h0
    have h9 : r.toNat ≤ 57 := h9
    exact toLower_eq (by omega) (by omega)
  · rfl
  · rfl
  · rfl

/-- The name of a resource is its kind and the words of the build. -/
theorem resourceName_eq {kind dataset versionID : String} (hkind : IsKind kind)
    (hdataset : isValidName dataset) (hversion : isValidName versionID)
    (hlength : kind.toList.length ≤ 252) :
  (resourceName kind dataset versionID).toList =
    if buildWords (252 - kind.toList.length) dataset versionID = [] then kind.toList
    else kind.toList ++ '-' :: buildWords (252 - kind.toList.length) dataset versionID
  := by
  obtain ⟨n, hn⟩ := (sanitize_eq (dataset.toList ++ '-' :: versionID.toList)).1
  have hname : (kind ++ "-" ++ dataset ++ "-" ++ versionID).toList.map toLower =
      kind.toList ++ '-' :: (dataset.toList ++ '-' :: versionID.toList) := by
    simp [String.toList_append, hkind.lower, toLower_valid hdataset, toLower_valid hversion]
    decide
  have hroom : 253 - kind.toList.length = 252 - kind.toList.length + 1 := by omega
  rw [resourceName, hname, String.toList_ofList, hkind.kept, hn, wordsFrom_append,
    List.take_append, List.take_of_length_le (by omega), hroom, List.take_succ_cons]
  exact (trimHyphens_append_cons hkind.trimmed).trans (by rw [trimHyphens_take_append]; rfl)

/-- Two builds share the name of a resource if they have the same words. -/
theorem resourceName_inj {kind d v d' v' : String} (hkind : IsKind kind)
    (hd : isValidName d) (hv : isValidName v) (hd' : isValidName d') (hv' : isValidName v')
    (hlength : kind.toList.length ≤ 252) :
  resourceName kind d v = resourceName kind d' v' ↔
    buildWords (252 - kind.toList.length) d v = buildWords (252 - kind.toList.length) d' v'
  := by
  rw [← String.toList_inj, resourceName_eq hkind hd hv hlength, resourceName_eq hkind hd' hv' hlength]
  constructor
  · intro h
    by_cases hb : buildWords (252 - kind.toList.length) d v = []
    · by_cases hb' : buildWords (252 - kind.toList.length) d' v' = []
      · rw [hb, hb']
      · rw [if_pos hb, if_neg hb'] at h
        simp at h
    · by_cases hb' : buildWords (252 - kind.toList.length) d' v' = []
      · rw [if_neg hb, if_pos hb'] at h
        simp at h
      · rw [if_neg hb, if_neg hb'] at h
        simpa using h
  · intro h
    rw [h]

/-- Builds with the same words as far as there is room have the same words in less room. -/
theorem buildWords_mono {d v d' v' : String} {room room' : Nat} (hle : room ≤ room')
    (h : buildWords room' d v = buildWords room' d' v') :
  buildWords room d v = buildWords room d' v'
  := by
  have hcut : ∀ d v, buildWords room d v = trimHyphens ((buildWords room' d v).take room) :=
    fun _ _ => trimHyphens_take hle
  rw [hcut, hcut, h]

theorem words_versionCRName (dataset versionID : String) :
  words (versionCRName dataset versionID) = words dataset ++ words versionID
  := by
  rw [words, versionCRName, String.toList_append, String.toList_append, List.append_assoc]
  exact wordsFrom_append [] dataset.toList versionID.toList

/-- The four names of two builds differ if and only if the words of the builds do, in the room
that the name of the `ConfigMap` has for them. -/
theorem names_ne_iff {dataset versionID dataset' versionID' : String}
    (hd : isValidName dataset) (hv : isValidName versionID)
    (hd' : isValidName dataset') (hv' : isValidName versionID') :
  (versionCRName dataset versionID ≠ versionCRName dataset' versionID' ∧
    jobName dataset versionID ≠ jobName dataset' versionID' ∧
    configMapName dataset versionID ≠ configMapName dataset' versionID' ∧
    pvcName dataset versionID ≠ pvcName dataset' versionID') ↔
  buildWords 242 dataset versionID ≠ buildWords 242 dataset' versionID'
  := by
  have hjob : jobName dataset versionID = jobName dataset' versionID' ↔ _ :=
    resourceName_inj isKind_build hd hv hd' hv' (by decide)
  have hconfig : configMapName dataset versionID = configMapName dataset' versionID' ↔ _ :=
    resourceName_inj isKind_config hd hv hd' hv' (by decide)
  have hpvc : pvcName dataset versionID = pvcName dataset' versionID' ↔ _ :=
    resourceName_inj isKind_pvc hd hv hd' hv' (by decide)
  constructor
  · rintro ⟨_, _, hne, _⟩ heq
    exact hne (hconfig.mpr heq)
  · intro hne
    refine ⟨?_, ?_, ?_, ?_⟩
    · intro heq
      apply hne
      rw [buildWords, buildWords, ← words_versionCRName, ← words_versionCRName, heq]
    · intro heq
      exact hne (buildWords_mono (by decide) (hjob.mp heq))
    · intro heq
      exact hne (hconfig.mp heq)
    · intro heq
      exact hne (buildWords_mono (by decide) (hpvc.mp heq))

theorem names_ne_daily :
  (versionCRName "daily" "v1" ≠ versionCRName "daily" "v2" ∧
    jobName "daily" "v1" ≠ jobName "daily" "v2" ∧
    configMapName "daily" "v1" ≠ configMapName "daily" "v2" ∧
    pvcName "daily" "v1" ≠ pvcName "daily" "v2")
  :=
  (names_ne_iff (by decide) (by decide) (by decide) (by decide)).mpr (by decide)

/-- Version `c` of `a-b` and version `b-c` of `a` share all names. -/
theorem names_eq_shared :
  isValidName "a-b" ∧ isValidName "c" ∧ isValidName "a" ∧ isValidName "b-c" ∧
    ("a-b", "c") ≠ ("a", "b-c") ∧
    versionCRName "a-b" "c" = versionCRName "a" "b-c" ∧
    jobName "a-b" "c" = jobName "a" "b-c" ∧
    configMapName "a-b" "c" = configMapName "a" "b-c" ∧
    pvcName "a-b" "c" = pvcName "a" "b-c"
  := by decide

end ControlPlane
