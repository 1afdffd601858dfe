import Mcfreeze.V4.Reader

/-!
# How the table of a V4 partition grows

`build` (`v4/index.rs`) starts with a fill rate of 95 % and makes the table 1.5 times as
large whenever a bucket would end up further than 255 from its home.

A table that is built holds the entries, each at its recorded distance from its home, and a
lookup visits exactly those with its fingerprint.

Whether a table is built at all depends on the fingerprints that are close together, not
only on equal ones: once a table is larger than every fingerprint, the home of a bucket is
its fingerprint, and `L` adjacent homes have room for `L + 255` buckets, whatever the size.
The check before the build counts equal fingerprints only.
-/

open Format

namespace V4

open Bytes Probing

/-! ### Attempts -/

section

variable {table : List Bucket} {psls : List Nat} {cur : Bucket} {entries : List Bucket} {n : Nat}

/-- The outcome of an attempt: it succeeds or some bucket is too far from its home. -/
def Ends {α : Type} (r : Except Error α) : Prop :=
  (∃ a, r = .ok a) ∨ ∃ psl nKeys nBuckets, r = .error (.pslOverflow psl nKeys nBuckets)

/-- An insertion ends when there is an empty bucket ahead. -/
theorem insertLoop_ends {fuel pos psl d : Nat} {b : Bucket} (hlength : psls.length = table.length)
    (hpos : pos < table.length) (hb : table[(pos + d) % table.length]? = some b)
    (hempty : b.isEmpty = true) (hd : d < fuel) :
  Ends (insertLoop fuel table psls pos psl cur)
  := by
  induction fuel generalizing table psls pos psl cur d with
  | zero => omega
  | succ fuel ih =>
    obtain ⟨slot, hslot⟩ : ∃ slot, table[pos]? = some slot := ⟨_, List.getElem?_eq_getElem hpos⟩
    obtain ⟨slotPsl, hslotPsl⟩ : ∃ slotPsl, psls[pos]? = some slotPsl :=
      ⟨_, List.getElem?_eq_getElem (by omega)⟩
    rw [insertLoop, hslot, hslotPsl]
    dsimp only
    split
    · left
      exact ⟨_, rfl⟩
    · next hfull =>
      have hne : (pos + d) % table.length ≠ pos := by
        intro heq
        rw [heq, hslot] at hb
        rw [Option.some.inj hb] at hfull
        exact hfull hempty
      have hd0 : d ≠ 0 := by
        rintro rfl
        rw [Nat.add_zero, Nat.mod_eq_of_lt hpos] at hne
        exact hne rfl
      have hahead : ((pos + 1) % table.length + (d - 1)) % table.length = (pos + d) % table.length := by
        rw [Nat.mod_add_mod]
        congr 1
        omega
      have hnext : (pos + 1) % table.length < table.length := Nat.mod_lt _ (by omega)
      split
      · split
        · right
          exact ⟨_, _, _, rfl⟩
        · have hset : (table.set pos cur).length = table.length := List.length_set
          rw [← hset]
          apply ih (d := d - 1)
          · rw [List.length_set, List.length_set, hlength]
          · rwa [hset]
          · rw [hset, hahead, List.getElem?_set_ne (Ne.symm hne)]
            apply hb
          · omega
      · split
        · right
          exact ⟨_, _, _, rfl⟩
        · apply ih hlength hnext (d := d - 1)
          · rw [hahead]
            apply hb
          · omega

/-- An insertion ends when there is room. -/
theorem insert_ends (cur : Bucket) (hlength : psls.length = table.length)
    (hroom : (bucketsIn table).length < table.length) :
  Ends (insert (table, psls) cur)
  := by
  obtain ⟨p, b, hb, hempty⟩ := exists_free hroom
  have hpos : 0 < table.length := by omega
  obtain ⟨d, hd, hround⟩ := exists_distance (homeOf table.length cur) (List.getElem?_eq_some_iff.mp hb).1
  have hhome : homeOf table.length cur < table.length := Nat.mod_lt _ hpos
  rw [insert, if_neg (by dsimp only; omega)]
  apply insertLoop_ends hlength hhome _ hempty hd
  rw [hround]
  apply hb

/-- Inserting all entries ends when there is room for them. -/
theorem foldlM_insert_ends (h : Placed table psls) (hentries : ∀ e ∈ entries, e.isEmpty = false)
    (hroom : entries.length + (bucketsIn table).length ≤ table.length) :
  Ends (entries.foldlM insert (table, psls))
  := by
  induction entries generalizing table psls with
  | nil =>
    left
    exact ⟨_, rfl⟩
  | cons e entries ih =>
    rw [List.length_cons] at hroom
    rw [List.foldlM_cons]
    rcases insert_ends e h.length (by omega) with ⟨⟨table₁, psls₁⟩, hins⟩ | ⟨psl, m, k, hins⟩
    · obtain ⟨hlen, hplaced, hperm⟩ := insert_spec h (hentries e List.mem_cons_self) hins
      rw [hins]
      apply ih hplaced fun e' he' => hentries e' (List.mem_cons_of_mem _ he')
      rw [hperm.length_eq, hlen, List.length_cons]
      omega
    · rw [hins]
      right
      exact ⟨psl, m, k, rfl⟩

theorem attempt_ends (hentries : ∀ e ∈ entries, e.isEmpty = false) (hroom : entries.length ≤ n) :
  Ends (attempt entries n)
  := by
  apply foldlM_insert_ends (placed_replicate n) hentries
  have hnone : bucketsIn (List.replicate n Bucket.empty) = [] := elements_replicate n rfl
  rw [hnone, List.length_replicate]
  apply hroom

theorem length_lt_bucketCount (h : entries ≠ []) :
  entries.length < bucketCount entries.length
  := by
  have hpos : 0 < entries.length := List.length_pos_iff.mpr h
  rw [bucketCount]
  omega

/-- A table that is built comes from an attempt with more buckets than entries. -/
theorem build_attempt {fuel retries : Nat} (hentries : ∀ e ∈ entries, e.isEmpty = false)
    (h : build fuel entries = some (.ok (table, retries))) :
  ∃ psls, attempt entries table.length = .ok (table, psls)
    ∧ (entries ≠ [] → entries.length < table.length)
  := by
  obtain ⟨m, psls, hle, hattempt⟩ := buildFuel_attempt h
  obtain ⟨rfl, -, -⟩ := attempt_spec hentries hattempt
  refine ⟨psls, hattempt, ?_⟩
  intro hne
  have := length_lt_bucketCount hne
  omega

theorem isEmpty_eq_false (h : cur.fingerprint ≠ 0) :
  cur.isEmpty = false
  := by
  rw [Bucket.isEmpty, beq_eq_false_iff_ne]
  apply h

/-- What a lookup visits in a table that is built.  The entries are in the table, at their
recorded distance from their homes and with no empty bucket in between; unless there are
none, an empty bucket is left. -/
theorem build_visits {fuel retries : Nat}
    (hentries : ∀ e ∈ entries, e.fingerprint ≠ 0 ∧ e.offset < noMatch)
    (h : build fuel entries = some (.ok (table, retries))) :
  (∀ H data seed key fp, PartitionReader.get H table data seed key fp
      = answer data (verifyFingerprint H key seed) false (visited table (compactFingerprint fp)))
    ∧ (∀ cfp off, off ∈ visited table cfp ↔ ∃ e ∈ entries, e.fingerprint = cfp ∧ e.offset = off)
    ∧ (bucketsIn table).Perm entries
    ∧ (∃ psls, attempt entries table.length = .ok (table, psls) ∧ Placed table psls
      ∧ ∀ (p : Nat) (b : Bucket) (psl : Nat), table[p]? = some b → b.isEmpty = false →
        psls[p]? = some psl → psl < table.length)
    ∧ (entries ≠ [] → entries.length < table.length ∧ ∃ b ∈ table, b.isEmpty = true)
  := by
  have hfull : ∀ e ∈ entries, e.isEmpty = false := fun e he => isEmpty_eq_false (hentries e he).1
  obtain ⟨psls, hattempt, hroom⟩ := build_attempt hfull h
  obtain ⟨-, hplaced, hperm⟩ := attempt_spec hfull hattempt
  have hmem : ∀ b, b ∈ table ∧ b.isEmpty = false ↔ b ∈ entries := by
    intro b
    rw [← hperm.mem_iff, bucketsIn, elements, List.mem_filter, Bool.not_eq_true']
  have hoffsets : ∀ b ∈ table, b.isEmpty = false → b.offset ≠ noMatch := by
    intro b hb hne
    apply UInt32.ne_of_lt
    apply (hentries b ((hmem b).mp ⟨hb, hne⟩)).2
  have hempty : entries ≠ [] → ∃ (p : Nat) (b : Bucket), table[p]? = some b ∧ b.isEmpty = true := by
    intro hne
    have hfewer : (bucketsIn table).length < table.length := by
      rw [hperm.length_eq]
      apply hroom hne
    apply exists_free hfewer
  refine ⟨?_, ?_, hperm, ⟨psls, hattempt, hplaced, ?_⟩, ?_⟩
  · intro H data seed key fp
    apply PartitionReader.get_eq
  · intro cfp off
    rw [mem_visited hoffsets hplaced.findable]
    constructor
    · rintro ⟨b, ⟨hb, hne, hfp⟩, hoff⟩
      exact ⟨b, (hmem b).mp ⟨hb, hne⟩, hfp, hoff⟩
    · rintro ⟨e, he, hfp, hoff⟩
      obtain ⟨hb, hne⟩ := (hmem e).mpr he
      exact ⟨e, ⟨hb, hne, hfp⟩, hoff⟩
  · intro p b psl hb hne hpsl
    obtain ⟨psl', -, hget, hreach⟩ := hplaced.distance p b hb hne
    obtain rfl := Option.some.inj (hget.symm.trans hpsl)
    have hentry := (hmem b).mp ⟨List.mem_of_getElem? hb, hne⟩
    obtain ⟨q, x, hx, hxe⟩ := hempty (List.ne_nil_of_mem hentry)
    apply hreach.path.lt_length hx hxe
  · intro hne
    obtain ⟨q, x, hx, hxe⟩ := hempty hne
    exact ⟨hroom hne, x, List.mem_of_getElem? hx, hxe⟩

/-- Two entries with one fingerprint wrap around in a table of three buckets. -/
theorem build_visits_two :
  build 1 [⟨5, 0⟩, ⟨5, 7⟩] = some (.ok ([⟨5, 7⟩, .empty, ⟨5, 0⟩], 0))
    ∧ ∀ off, off ∈ visited [⟨5, 7⟩, .empty, ⟨5, 0⟩] 5
      ↔ ∃ e ∈ [(⟨5, 0⟩ : Bucket), ⟨5, 7⟩], e.fingerprint = 5 ∧ e.offset = off
  := by
  have hbuild : build 1 [⟨5, 0⟩, ⟨5, 7⟩] = some (.ok ([⟨5, 7⟩, .empty, ⟨5, 0⟩], 0)) := by
    decide +kernel
  refine ⟨hbuild, ?_⟩
  apply (build_visits (by decide) hbuild).2.1

/-- Without entries the table has no bucket, and so no empty one. -/
theorem build_nil_has_no_room :
  ¬ ∀ (fuel : Nat) (entries table : List Bucket) (retries : Nat),
      (∀ e ∈ entries, e.fingerprint ≠ 0 ∧ e.offset < noMatch) →
      build fuel entries = some (.ok (table, retries)) → entries.length < table.length
  := by
  intro h
  have hlt := h 1 [] [] 0 (by simp) (by decide)
  simp at hlt

end

/-! ### When the build ends -/

/-- In a table that is larger than every fingerprint the home of a bucket is its
fingerprint. -/
def ownHome (b : Bucket) : Nat :=
  b.fingerprint.toNat

/-- The fingerprint is one of the `L` from `a` on. -/
def inWindow (a L : Nat) (b : Bucket) : Bool :=
  decide (a ≤ ownHome b ∧ ownHome b < a + L)

/-- At most `L + 255` entries have one of `L` adjacent fingerprints. -/
def Spread (entries : List Bucket) : Prop :=
  ∀ a L, entries.countP (inWindow a L) ≤ L + maxPsl

section

variable {table : List Bucket} {psls : List Nat} {cur : Bucket} {entries : List Bucket} {n : Nat}

theorem spread_of_perm {entries' : List Bucket} (h : entries.Perm entries') (hs : Spread entries) :
  Spread entries'
  := by
  intro a L
  rw [← h.countP_eq]
  apply hs

/-- The entries of a table are spread, since each is at most 255 from its home. -/
theorem spread_of_attempt (hentries : ∀ e ∈ entries, e.isEmpty = false)
    (h : attempt entries n = .ok (table, psls)) :
  Spread entries
  := by
  obtain ⟨-, hplaced, hperm⟩ := attempt_spec hentries h
  intro a L
  rw [← hperm.countP_eq, bucketsIn, elements, List.countP_filter]
  have hwindow : ((List.range (L + maxPsl)).map fun j => (a + j) % table.length).length = L + maxPsl := by
    rw [List.length_map, List.length_range]
  rw [← hwindow]
  apply countP_le_positions
  intro p b hb hin
  rw [Bool.and_eq_true, inWindow, decide_eq_true_eq, Bool.not_eq_true'] at hin
  obtain ⟨⟨hge, hlt⟩, hfull⟩ := hin
  obtain ⟨psl, hpsl, -, hreach⟩ := hplaced.distance p b hb hfull
  rw [List.mem_map]
  refine ⟨ownHome b - a + psl, List.mem_range.mpr (by omega), ?_⟩
  have hsum : a + (ownHome b - a + psl) = ownHome b + psl := by omega
  rw [hsum, hreach.position, homeOf, Nat.mod_add_mod, ownHome]

/-- The size from which on no bucket wraps around. -/
def noWrapSize : Nat := 2 ^ 32 + maxPsl + 1

theorem homeOf_of_large (hlarge : noWrapSize ≤ n) (b : Bucket) :
  homeOf n b = ownHome b
  := by
  have := b.fingerprint.toNat_lt
  rw [noWrapSize] at hlarge
  apply Nat.mod_eq_of_lt
  omega

/-- The buckets stand in the order of their fingerprints, at their recorded distances. -/
structure Settled (table : List Bucket) (psls : List Nat) : Prop where
  length : psls.length = table.length
  ordered : Ordered Bucket.isEmpty ownHome table
  distance : ∀ p b, table[p]? = some b → b.isEmpty = false →
    ∃ psl, psls[p]? = some psl ∧ ownHome b + psl = p

/-- The buckets of an empty table are in order. -/
theorem settled_replicate (n : Nat) :
  Settled (List.replicate n Bucket.empty) (List.replicate n 0)
  := by
  have hnone : ∀ (p : Nat) (b : Bucket), (List.replicate n Bucket.empty)[p]? = some b →
      b.isEmpty = true := by
    intro p b hb
    rw [List.eq_of_mem_replicate (List.mem_of_getElem? hb)]
    rfl
  constructor
  · simp
  · intro p b hb hfull
    rw [hnone p b hb] at hfull
    simp at hfull
  · intro p b hb hfull
    rw [hnone p b hb] at hfull
    simp at hfull

/-- Placing the carried bucket. -/
theorem Settled.set {pos psl : Nat} (h : Settled table psls) (hcur : cur.isEmpty = false)
    (hcarried : Carried Bucket.isEmpty ownHome table cur pos)
    (htake : MayTake Bucket.isEmpty ownHome table cur pos) (hdist : ownHome cur + psl = pos) :
  Settled (table.set pos cur) (psls.set pos psl)
  := by
  constructor
  · rw [List.length_set, List.length_set, h.length]
  · apply h.ordered.set hcarried hcur htake
  · intro q b hb hfull
    by_cases hq : pos = q
    · subst hq
      have hlt : pos < table.length := by
        have := (List.getElem?_eq_some_iff.mp hb).1
        rwa [List.length_set] at this
      rw [List.getElem?_set_self hlt] at hb
      obtain rfl := Option.some.inj hb
      refine ⟨psl, ?_, hdist⟩
      apply List.getElem?_set_self
      rwa [h.length]
    · rw [List.getElem?_set_ne hq] at hb
      rw [List.getElem?_set_ne hq]
      apply h.distance q b hb hfull

/-- Among spread buckets none has to be carried further than 255. -/
theorem Settled.not_crowded {pos : Nat} {slot : Bucket} (h : Settled table psls)
    (hspread : Spread (cur :: bucketsIn table))
    (hcarried : Carried Bucket.isEmpty ownHome table cur pos) (hslot : table[pos]? = some slot)
    (hfull : slot.isEmpty = false) (hle : ownHome slot ≤ ownHome cur) :
  pos < ownHome cur + maxPsl
  := by
  obtain ⟨s, hs, hcount⟩ := h.ordered.countP_crowd (hcarried.next hslot hfull hle).crowd
  have hwindow := hspread s (ownHome cur + 1 - s)
  have hcur : inWindow s (ownHome cur + 1 - s) cur = true := by
    rw [inWindow, decide_eq_true_eq]
    omega
  rw [List.countP_cons_of_pos hcur] at hwindow
  have hsame : (elements Bucket.isEmpty table).countP (inWindow s (ownHome cur + 1 - s))
      = (elements Bucket.isEmpty table).countP
        fun b => decide (s ≤ ownHome b ∧ ownHome b ≤ ownHome cur) := by
    apply List.countP_congr
    intro b _
    rw [inWindow, decide_eq_true_eq, decide_eq_true_eq]
    omega
  rw [hsame] at hwindow
  have := hcarried.le
  omega

/-- In a large table an insertion never runs over the limit, and keeps the order. -/
theorem insertLoop_settled (fuel : Nat) {pos psl : Nat} (hlarge : noWrapSize ≤ table.length)
    (h : Settled table psls) (hcur : cur.isEmpty = false)
    (hcarried : Carried Bucket.isEmpty ownHome table cur pos) (hdist : ownHome cur + psl = pos)
    (hpsl : psl ≤ maxPsl) (hspread : Spread (cur :: bucketsIn table)) :
  (∀ a k m, insertLoop fuel table psls pos psl cur ≠ .error (.pslOverflow a k m))
    ∧ ∀ table' psls', insertLoop fuel table psls pos psl cur = .ok (table', psls') →
      Settled table' psls'
  := by
  induction fuel generalizing table psls pos psl cur with
  | zero => simp [insertLoop]
  | succ fuel ih =>
    rw [insertLoop]
    split
    · next slot slotPsl hslot hslotPsl =>
      have hnowrap : (pos + 1) % table.length = pos + 1 := by
        have := cur.fingerprint.toNat_lt
        simp only [noWrapSize, ownHome] at hlarge hdist
        apply Nat.mod_eq_of_lt
        omega
      split
      · next hempty =>
        constructor
        · simp
        · intro table' psls' hok
          obtain ⟨rfl, rfl⟩ := Prod.mk.inj (Except.ok.inj hok)
          apply h.set hcur hcarried _ hdist
          intro y hy hfull
          rw [hslot] at hy
          rw [← Option.some.inj hy, hempty] at hfull
          simp at hfull
      · next hfull =>
        rw [Bool.not_eq_true] at hfull
        obtain ⟨slotPsl', hget, hslotDist⟩ := h.distance pos slot hslot hfull
        obtain rfl := Option.some.inj (hget.symm.trans hslotPsl)
        split
        · next hcloser =>
          have htake : MayTake Bucket.isEmpty ownHome table cur pos := by
            intro y hy _
            obtain rfl := Option.some.inj (hslot.symm.trans hy)
            omega
          rw [if_neg (by omega), hnowrap]
          apply ih
          · rw [List.length_set]
            apply hlarge
          · apply h.set hcur hcarried htake hdist
          · apply hfull
          · apply h.ordered.evicted hslot hfull hcur htake
          · omega
          · omega
          · apply spread_of_perm _ hspread
            apply (elements_set_occupied hslot hfull hcur).symm
        · next hfurther =>
          have hle : ownHome slot ≤ ownHome cur := by omega
          have hroom := h.not_crowded hspread hcarried hslot hfull hle
          rw [if_neg (by omega), hnowrap]
          apply ih hlarge h hcur (hcarried.next hslot hfull hle) _ _ hspread
          · omega
          · omega
    · simp

/-- In a table that is too large to wrap around, an insertion goes well if there is room and
the fingerprints are spread. -/
theorem insert_settled (hlarge : noWrapSize ≤ table.length) (h : Settled table psls)
    (hcur : cur.isEmpty = false) (hroom : (bucketsIn table).length < table.length)
    (hspread : Spread (cur :: bucketsIn table)) :
  ∃ table' psls', insert (table, psls) cur = .ok (table', psls') ∧ Settled table' psls'
  := by
  have hins : insert (table, psls) cur
      = insertLoop table.length table psls (ownHome cur) 0 cur := by
    rw [insert, if_neg (by dsimp only; omega)]
    dsimp only
    rw [homeOf_of_large hlarge]
  obtain ⟨hno, hkeeps⟩ := insertLoop_settled table.length hlarge h hcur Carried.start
    (Nat.add_zero _) (Nat.zero_le _) hspread
  rcases insert_ends cur h.length hroom with ⟨⟨table', psls'⟩, hok⟩ | ⟨a, k, m, hover⟩
  · refine ⟨table', psls', hok, ?_⟩
    apply hkeeps
    rw [← hins, hok]
  · rw [hins] at hover
    exact absurd hover (hno a k m)

/-- In a table that is too large to wrap around, all insertions go well if there is room and
the fingerprints are spread. -/
theorem foldlM_insert_settled (hlarge : noWrapSize ≤ table.length) (hplaced : Placed table psls)
    (h : Settled table psls) (hentries : ∀ e ∈ entries, e.isEmpty = false)
    (hroom : entries.length + (bucketsIn table).length ≤ table.length)
    (hspread : Spread (entries ++ bucketsIn table)) :
  ∃ r, entries.foldlM insert (table, psls) = .ok r
  := by
  induction entries generalizing table psls with
  | nil => exact ⟨_, rfl⟩
  | cons e entries ih =>
    rw [List.length_cons] at hroom
    have hcur : e.isEmpty = false := hentries e List.mem_cons_self
    have hspread₁ : Spread (e :: bucketsIn table) := by
      intro a L
      apply Nat.le_trans _ (hspread a L)
      rw [List.cons_append]
      apply List.Sublist.countP_le
      apply List.Sublist.cons_cons
      apply List.sublist_append_right
    obtain ⟨table₁, psls₁, hins, hsettled⟩ := insert_settled hlarge h hcur (by omega) hspread₁
    obtain ⟨hlen, hplaced₁, hperm⟩ := insert_spec hplaced hcur hins
    rw [List.foldlM_cons, hins]
    apply ih _ hplaced₁ hsettled fun e' he' => hentries e' (List.mem_cons_of_mem _ he')
    · rw [hperm.length_eq, hlen, List.length_cons]
      omega
    · apply spread_of_perm _ hspread
      rw [List.cons_append]
      apply List.perm_middle.symm.trans
      apply (List.Perm.refl entries).append hperm.symm
    · rwa [hlen]

/-- Spread entries go into every table that is large enough. -/
theorem attempt_of_spread (hlarge : noWrapSize ≤ n) (hentries : ∀ e ∈ entries, e.isEmpty = false)
    (hroom : entries.length ≤ n) (hspread : Spread entries) :
  ∃ r, attempt entries n = .ok r
  := by
  have hnone : bucketsIn (List.replicate n Bucket.empty) = [] := elements_replicate n rfl
  apply foldlM_insert_settled _ (placed_replicate n) (settled_replicate n) hentries
  · rw [hnone, List.length_replicate]
    apply hroom
  · rw [hnone, List.append_nil]
    apply hspread
  · rw [List.length_replicate]
    apply hlarge

/-- The build goes on or succeeds, and does not fail otherwise. -/
theorem buildFuel_none_or_ok (hentries : ∀ e ∈ entries, e.isEmpty = false)
    (hroom : entries.length ≤ n) (fuel r : Nat) :
  buildFuel entries fuel n r = none
    ∨ ∃ table retries, buildFuel entries fuel n r = some (.ok (table, retries))
  := by
  induction fuel generalizing n r with
  | zero =>
    left
    rfl
  | succ fuel ih =>
    rw [buildFuel]
    rcases attempt_ends hentries hroom with ⟨⟨table, psls⟩, hok⟩ | ⟨psl, k, m, hover⟩
    · right
      rw [hok]
      exact ⟨table, r, rfl⟩
    · rw [hover]
      apply ih
      omega

/-- The build goes on until the table is large enough for spread entries. -/
theorem buildFuel_of_spread {k r : Nat} (hentries : ∀ e ∈ entries, e.isEmpty = false)
    (hspread : Spread entries) (hroom : entries.length < n) (hk : noWrapSize ≤ n + k) :
  ∃ table retries, buildFuel entries (k + 1) n r = some (.ok (table, retries))
  := by
  induction k generalizing n r with
  | zero =>
    rw [Nat.add_zero] at hk
    obtain ⟨⟨table, psls⟩, hok⟩ := attempt_of_spread hk hentries (by omega) hspread
    rw [buildFuel, hok]
    exact ⟨table, r, rfl⟩
  | succ k ih =>
    rw [buildFuel]
    rcases attempt_ends hentries hroom.le with ⟨⟨table, psls⟩, hok⟩ | ⟨psl, j, m, hover⟩
    · rw [hok]
      exact ⟨table, r, rfl⟩
    · rw [hover]
      apply ih
      · omega
      · omega

theorem length_le_bucketCount (entries : List Bucket) :
  entries.length ≤ bucketCount entries.length
  := by
  rw [bucketCount]
  omega

/-- The build ends exactly if the entries are spread. -/
theorem build_ends_iff_spread (hentries : ∀ e ∈ entries, e.fingerprint ≠ 0) :
  (∃ fuel table retries, build fuel entries = some (.ok (table, retries))) ↔ Spread entries
  := by
  have hfull : ∀ e ∈ entries, e.isEmpty = false := fun e he => isEmpty_eq_false (hentries e he)
  constructor
  · rintro ⟨fuel, table, retries, h⟩
    obtain ⟨psls, hattempt, -⟩ := build_attempt hfull h
    apply spread_of_attempt hfull hattempt
  · intro hspread
    refine ⟨noWrapSize + 1, ?_⟩
    by_cases hne : entries = []
    · subst hne
      exact ⟨[], 0, rfl⟩
    · apply buildFuel_of_spread hfull hspread (length_lt_bucketCount hne)
      omega

/-- Three entries next to each other go into four buckets. -/
theorem build_ends_iff_spread_three :
  (∃ fuel table retries, build fuel [⟨8, 0⟩, ⟨9, 1⟩, ⟨9, 2⟩] = some (.ok (table, retries)))
    ↔ Spread [⟨8, 0⟩, ⟨9, 1⟩, ⟨9, 2⟩]
  :=
  build_ends_iff_spread (by decide)

/-- 255 entries with one fingerprint and three with the next one. -/
def neighbours : List Bucket :=
  List.replicate 255 ⟨1, 0⟩ ++ List.replicate 3 ⟨2, 0⟩

/-- The neighbours pass the check, and yet no table is large enough for them. -/
theorem build_neighbours_goes_on :
  (∀ e ∈ neighbours, e.fingerprint ≠ 0)
    ∧ checkNoPathologicalDuplicates neighbours = .ok ()
    ∧ ∀ fuel, build fuel neighbours = none
  := by
  have hentries : ∀ e ∈ neighbours, e.fingerprint ≠ 0 := by decide +kernel
  have hfull : ∀ e ∈ neighbours, e.isEmpty = false := fun e he => isEmpty_eq_false (hentries e he)
  refine ⟨hentries, by decide +kernel, ?_⟩
  intro fuel
  rcases buildFuel_none_or_ok hfull (length_le_bucketCount _) fuel 0 with h | ⟨table, retries, h⟩
  · apply h
  · obtain ⟨psls, hattempt, -⟩ := build_attempt hfull h
    have hcount := spread_of_attempt hfull hattempt 1 2
    have hall : neighbours.countP (inWindow 1 2) = 258 := by decide +kernel
    rw [hall, maxPsl] at hcount
    omega

end

end V4
