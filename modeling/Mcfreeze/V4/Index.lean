import Mcfreeze.Format.Layout
import Mcfreeze.Lib.Probing

/-!
# The V4 index

The hash table of a partition (`v4/index.rs`): Robin Hood insertion, retries with larger
tables, and the probe by groups of eight buckets.

Insertion keeps every bucket reachable from its home position through occupied buckets,
whatever it displaces.  So a probe that stops at the first empty bucket meets every bucket
with the fingerprint it looks for.
-/

open Format

namespace V4

open Bytes Probing

def maxOffset : Nat := 2 ^ 32 - 2
def maxPsl : Nat := 255
def groupSize : Nat := 8

/-- The sentinel for a slot of a group that does not match. -/
def noMatch : UInt32 := 0xffffffff

/-- The fingerprint of a bucket: the high half, where `0` is replaced by `1`. -/
def compactFingerprint (fp : UInt64) : UInt32 :=
  let t := (fp >>> 32).toUInt32
  if t = 0 then 1 else t

theorem compactFingerprint_ne_zero (fp : UInt64) :
  compactFingerprint fp ≠ 0
  := by
  simp only [compactFingerprint]
  split
  · decide
  · assumption

/-- A bucket of the table: a fingerprint and an offset in units of the value alignment. -/
structure Bucket where
  fingerprint : UInt32
  offset : UInt32
  deriving DecidableEq, Repr

namespace Bucket

def empty : Bucket := ⟨0, 0⟩

def new (fingerprint : UInt32) (alignedOffset : Nat) : Except Error Bucket :=
  if maxOffset < alignedOffset then .error (.offsetOverflow alignedOffset)
  else .ok ⟨fingerprint, UInt32.ofNat alignedOffset⟩

def isEmpty (b : Bucket) : Bool :=
  b.fingerprint == 0

end Bucket

/-- The position where the search for a bucket starts in a table of `n`. -/
def homeOf (n : Nat) (b : Bucket) : Nat :=
  b.fingerprint.toNat % n

/-! ### Insertion -/

def nOccupied (table : List Bucket) : Nat :=
  (table.filter fun b => !b.isEmpty).length

/-- Carry `cur` on from `pos` until there is an empty bucket, exchanging it with every
bucket that is closer to its home.  One round suffices: a table has more buckets than
keys. -/
def insertLoop : Nat → List Bucket → List Nat → Nat → Nat → Bucket →
    Except Error (List Bucket × List Nat)
  | 0, _, _, _, _, _ => .error (.panic "no empty bucket")
  | fuel + 1, table, psls, pos, psl, cur =>
    match table[pos]?, psls[pos]? with
    | some slot, some slotPsl =>
      if slot.isEmpty then .ok (table.set pos cur, psls.set pos psl)
      else if slotPsl < psl then
        if slotPsl = maxPsl then
          .error (.pslOverflow slotPsl (nOccupied (table.set pos cur)) table.length)
        else
          insertLoop fuel (table.set pos cur) (psls.set pos psl) ((pos + 1) % table.length)
            (slotPsl + 1) slot
      else if psl = maxPsl then .error (.pslOverflow psl (nOccupied table) table.length)
      else insertLoop fuel table psls ((pos + 1) % table.length) (psl + 1) cur
    | _, _ => .error (.panic "index out of bounds")

/-- Insert one entry. -/
def insert (t : List Bucket × List Nat) (entry : Bucket) : Except Error (List Bucket × List Nat) :=
  if t.1.length = 0 then .error (.panic "remainder with a divisor of zero")
  else insertLoop t.1.length t.1 t.2 (homeOf t.1.length entry) 0 entry

/-- Insert all entries into a table of `n` buckets. -/
def attempt (entries : List Bucket) (n : Nat) : Except Error (List Bucket × List Nat) :=
  entries.foldlM insert (List.replicate n .empty, List.replicate n 0)

/-- The number of buckets for a number of keys: a fill rate of 95 %, rounded up. -/
def bucketCount (nKeys : Nat) : Nat :=
  (20 * nKeys + 18) / 19

/-- Build the table with at most `fuel` retries, each 1.5 times as large; nothing when the
loop is still going on after them. -/
def buildFuel (entries : List Bucket) : Nat → Nat → Nat → Option (Except Error (List Bucket × Nat))
  | 0, _, _ => none
  | fuel + 1, nBuckets, retries =>
    match attempt entries nBuckets with
    | .ok (table, _) => some (.ok (table, retries))
    | .error (.pslOverflow _ _ _) => buildFuel entries fuel ((3 * nBuckets + 1) / 2) (retries + 1)
    | .error e => some (.error e)

def build (fuel : Nat) (entries : List Bucket) : Option (Except Error (List Bucket × Nat)) :=
  buildFuel entries fuel (bucketCount entries.length) 0

def maxDuplicateFingerprintChain : Nat := 255

/-- Count the entries by fingerprint; too many with the same one are an error. -/
def checkDuplicatesFrom : List Bucket → (UInt32 → Nat) → Nat → Except Error Unit
  | [], _, _ => .ok ()
  | e :: entries, counts, worst =>
    let c := counts e.fingerprint + 1
    let counts := fun fp => if fp = e.fingerprint then c else counts fp
    if worst < c then
      if maxDuplicateFingerprintChain < c then
        .error (.duplicateFingerprints c maxDuplicateFingerprintChain)
      else checkDuplicatesFrom entries counts c
    else checkDuplicatesFrom entries counts worst

def checkNoPathologicalDuplicates (entries : List Bucket) : Except Error Unit :=
  checkDuplicatesFrom entries (fun _ => 0) 0

/-! ### Probing -/

/-- Probe `m` buckets from `start` on: the offsets of the buckets that match, and whether
there was an empty bucket. -/
def probeFrom (table : List Bucket) (cfp : UInt32) : Nat → Nat → List UInt32 × Bool
  | _, 0 => ([], false)
  | start, m + 1 =>
    match table[start % table.length]? with
    | none => (List.replicate (m + 1) noMatch, true)
    | some bucket =>
      if bucket.isEmpty then (List.replicate (m + 1) noMatch, true)
      else
        let rest := probeFrom table cfp (start + 1) m
        ((if bucket.fingerprint = cfp then bucket.offset else noMatch) :: rest.1, rest.2)

/-- Probe one group. -/
def probeGroup (table : List Bucket) (cfp : UInt32) (pos : Nat) : List UInt32 × Bool :=
  probeFrom table cfp pos groupSize

/-! ### Insertion keeps the table chained -/

/-- Every bucket in use is at its recorded distance from its home, and no bucket in between
is empty. -/
structure Placed (table : List Bucket) (psls : List Nat) : Prop where
  length : psls.length = table.length
  distance : ∀ p b, table[p]? = some b → b.isEmpty = false →
    ∃ psl ≤ maxPsl, psls[p]? = some psl
      ∧ ReachesIn Bucket.isEmpty (homeOf table.length) table b p psl

section

variable {table table' : List Bucket} {psls psls' : List Nat} {cur : Bucket} {n : Nat}

/-- The buckets of a table can be found. -/
abbrev Findable (table : List Bucket) : Prop :=
  Chained Bucket.isEmpty (homeOf table.length) table

/-- The buckets in use. -/
abbrev bucketsIn (table : List Bucket) : List Bucket :=
  elements Bucket.isEmpty table

theorem Placed.findable (h : Placed table psls) :
  Findable table
  := by
  intro p b hb hfull
  obtain ⟨psl, -, -, hreach⟩ := h.distance p b hb hfull
  apply hreach.reaches

theorem placed_replicate (n : Nat) :
  Placed (List.replicate n Bucket.empty) (List.replicate n 0)
  := by
  constructor
  · simp
  · intro p b hb hfull
    have hmem := List.eq_of_mem_replicate (List.mem_of_getElem? hb)
    rw [hmem] at hfull
    simp [Bucket.isEmpty, Bucket.empty] at hfull

/-- Placing a bucket at its distance from its home. -/
theorem Placed.set (h : Placed table psls) {pos psl : Nat} (hpsl : psl ≤ maxPsl)
    (hcur : cur.isEmpty = false)
    (hreach : ReachesIn Bucket.isEmpty (homeOf table.length) table cur pos psl) :
  Placed (table.set pos cur) (psls.set pos psl)
  := by
  constructor
  · rw [List.length_set, List.length_set, h.length]
  · intro q b hb hfull
    rw [List.length_set]
    by_cases hq : pos = q
    · subst hq
      have hlt : pos < table.length := by
        have := (List.getElem?_eq_some_iff.mp hb).1
        rwa [List.length_set] at this
      rw [List.getElem?_set_self hlt] at hb
      obtain rfl := Option.some.inj hb
      refine ⟨psl, hpsl, ?_, hreach.set hcur⟩
      apply List.getElem?_set_self
      rwa [h.length]
    · rw [List.getElem?_set_ne hq] at hb
      obtain ⟨psl', hle, hget, hold⟩ := h.distance q b hb hfull
      refine ⟨psl', hle, ?_, hold.set hcur⟩
      rwa [List.getElem?_set_ne hq]

/-- The loop that inserts keeps the length of the table and the places of its buckets, and adds
the bucket. -/
theorem insertLoop_spec {fuel pos psl : Nat} (h : Placed table psls) (hpsl : psl ≤ maxPsl)
    (hreach : ReachesIn Bucket.isEmpty (homeOf table.length) table cur pos psl)
    (hcur : cur.isEmpty = false)
    (hins : insertLoop fuel table psls pos psl cur = .ok (table', psls')) :
  table'.length = table.length ∧ Placed table' psls'
    ∧ (bucketsIn table').Perm (cur :: bucketsIn table)
  := by
  induction fuel generalizing table psls pos psl cur with
  | zero => simp [insertLoop] at hins
  | succ fuel ih =>
    rw [insertLoop] at hins
    split at hins
    · next slot slotPsl hslot hslotPsl =>
      have hset : Placed (table.set pos cur) (psls.set pos psl) := h.set hpsl hcur hreach
      split at hins
      · next hempty =>
        obtain ⟨rfl, rfl⟩ := Prod.mk.inj (Except.ok.inj hins)
        exact ⟨List.length_set, hset, elements_set_free hslot hempty hcur⟩
      · next hfull =>
        rw [Bool.not_eq_true] at hfull
        obtain ⟨slotPsl', hle, hget, hslotReach⟩ := h.distance pos slot hslot hfull
        obtain rfl := Option.some.inj (hget.symm.trans hslotPsl)
        split at hins
        · split at hins
          · simp at hins
          · next hmax =>
            have hlength : (table.set pos cur).length = table.length := List.length_set
            have hcarried : ReachesIn Bucket.isEmpty (homeOf (table.set pos cur).length)
                (table.set pos cur) slot ((pos + 1) % (table.set pos cur).length)
                (slotPsl' + 1) := by
              have hlt := (List.getElem?_eq_some_iff.mp hslot).1
              apply ReachesIn.next _ (List.getElem?_set_self hlt) hcur
              rw [hlength]
              apply hslotReach.set hcur
            rw [← hlength] at hins
            obtain ⟨hlen, hplaced, hperm⟩ := ih hset (by omega) hcarried hfull hins
            refine ⟨hlen.trans hlength, hplaced, ?_⟩
            apply hperm.trans (elements_set_occupied hslot hfull hcur)
        · split at hins
          · simp at hins
          · next hmax =>
            apply ih h (by omega) (hreach.next hslot hfull) hcur hins
    · simp at hins

/-- An insertion keeps the length of the table and the places of its buckets, and adds the
bucket. -/
theorem insert_spec (h : Placed table psls) (hcur : cur.isEmpty = false)
    (hins : insert (table, psls) cur = .ok (table', psls')) :
  table'.length = table.length ∧ Placed table' psls'
    ∧ (bucketsIn table').Perm (cur :: bucketsIn table)
  := by
  rw [insert] at hins
  split at hins
  · simp at hins
  · apply insertLoop_spec h (Nat.zero_le _) _ hcur hins
    apply ReachesIn.start
    rw [homeOf, Nat.mod_mod]

/-- Inserting entries one after the other. -/
theorem foldlM_insert_spec {entries : List Bucket} (h : Placed table psls)
    (hentries : ∀ e ∈ entries, e.isEmpty = false)
    (hins : entries.foldlM insert (table, psls) = .ok (table', psls')) :
  table'.length = table.length ∧ Placed table' psls'
    ∧ (bucketsIn table').Perm (entries ++ bucketsIn table)
  := by
  induction entries generalizing table psls with
  | nil =>
    obtain ⟨rfl, rfl⟩ := Prod.mk.inj (Except.ok.inj hins)
    exact ⟨rfl, h, List.Perm.refl _⟩
  | cons e entries ih =>
    rw [List.foldlM_cons] at hins
    cases hfirst : insert (table, psls) e with
    | error err =>
      simp [hfirst, bind, Except.bind] at hins
    | ok r =>
      obtain ⟨table₁, psls₁⟩ := r
      rw [hfirst] at hins
      obtain ⟨hlen, hplaced, hperm⟩ := insert_spec h (hentries e List.mem_cons_self) hfirst
      obtain ⟨hlen', hplaced', hperm'⟩ :=
        ih hplaced (fun e' he' => hentries e' (List.mem_cons_of_mem _ he')) hins
      refine ⟨hlen'.trans hlen, hplaced', ?_⟩
      apply hperm'.trans
      apply ((List.Perm.refl entries).append hperm).trans
      rw [List.cons_append]
      apply List.perm_middle

/-- A table into which all entries went. -/
theorem attempt_spec {entries : List Bucket} (hentries : ∀ e ∈ entries, e.isEmpty = false)
    (h : attempt entries n = .ok (table, psls)) :
  table.length = n ∧ Placed table psls ∧ (bucketsIn table).Perm entries
  := by
  obtain ⟨hlen, hplaced, hperm⟩ := foldlM_insert_spec (placed_replicate n) hentries h
  have hnone : bucketsIn (List.replicate n Bucket.empty) = [] := elements_replicate n rfl
  rw [hnone, List.append_nil] at hperm
  exact ⟨hlen.trans List.length_replicate, hplaced, hperm⟩

/-- A table that is built comes from an attempt, with at least the first number of
buckets. -/
theorem buildFuel_attempt {fuel r retries : Nat} {entries : List Bucket}
    (h : buildFuel entries fuel n r = some (.ok (table, retries))) :
  ∃ m psls, n ≤ m ∧ attempt entries m = .ok (table, psls)
  := by
  induction fuel generalizing n r with
  | zero => simp [buildFuel] at h
  | succ fuel ih =>
    rw [buildFuel] at h
    split at h
    · next table₁ psls₁ hattempt =>
      obtain ⟨rfl, -⟩ := Prod.mk.inj (Except.ok.inj (Option.some.inj h))
      exact ⟨n, psls₁, Nat.le_refl n, hattempt⟩
    · obtain ⟨m, psls, hle, hattempt⟩ := ih h
      exact ⟨m, psls, by omega, hattempt⟩
    · simp at h

/-- A table that is built holds the entries, and they can be found. -/
theorem build_spec {fuel retries : Nat} {entries : List Bucket}
    (hentries : ∀ e ∈ entries, e.isEmpty = false)
    (h : build fuel entries = some (.ok (table, retries))) :
  Findable table ∧ (bucketsIn table).Perm entries
  := by
  obtain ⟨m, psls, -, hattempt⟩ := buildFuel_attempt h
  obtain ⟨-, hplaced, hperm⟩ := attempt_spec hentries hattempt
  exact ⟨hplaced.findable, hperm⟩

end

/-! ### What a probe meets -/

section

variable {table : List Bucket} {cfp : UInt32}

/-- A probe of `m` buckets reports the offsets of the matching ones, and that it met an
empty bucket exactly if it met less than `m`. -/
theorem probeFrom_spec (hoffsets : ∀ b ∈ table, b.isEmpty = false → b.offset ≠ noMatch)
    (start m : Nat) :
  (probeFrom table cfp start m).1.filter (· ≠ noMatch)
      = ((scan Bucket.isEmpty table start m).filter (·.fingerprint = cfp)).map Bucket.offset
    ∧ ((probeFrom table cfp start m).2 = false ↔ (scan Bucket.isEmpty table start m).length = m)
  := by
  induction m generalizing start with
  | zero => simp [probeFrom, scan]
  | succ m ih =>
    obtain ⟨hoff, hdone⟩ := ih (start + 1)
    simp only [ne_eq, decide_not] at hoff ⊢
    rw [probeFrom, scan]
    cases hget : table[start % table.length]? with
    | none => simp
    | some b =>
      by_cases hempty : b.isEmpty = true
      · simp [hempty]
      · have hne := hoffsets b (List.mem_of_getElem? hget) (by simpa using hempty)
        by_cases hfp : b.fingerprint = cfp
        · simp [hempty, hfp, hne, hoff, hdone]
        · simp [hempty, hfp, hoff, hdone]

end

end V4
