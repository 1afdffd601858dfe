import Mcfreeze.Lib.JsonText
import Mcfreeze.Lib.Lists
import Mathlib.Data.List.TakeWhile

/-!
# Texts that are cut off

What a reader has read of a text it reads again when more text follows, unless it was a
number at the very end.  So the text of an object that is cut off anywhere is no text of a
value, and neither are its bytes.
-/

namespace Json

variable {toDouble : List Char → Option UInt64}

/-! ### Strings -/

theorem readHex4_append {s rest : List Char} {n : Nat} (h : readHex4 s = some (n, rest))
    (t : List Char) :
  readHex4 (s ++ t) = some (n, rest ++ t)
  := by
  match s with
  | a :: b :: c :: d :: s =>
    simp only [List.cons_append, readHex4] at h ⊢
    split at h <;> simp_all
  | [] | [_] | [_, _] | [_, _, _] => cases h

/-- The second half of a surrogate pair is read without a look at what follows. -/
theorem readSurrogate_append {high : Nat} {s rest : List Char} {c : Char}
    (h : readSurrogate high s = some (c, rest)) (t : List Char) :
  readSurrogate high (s ++ t) = some (c, rest ++ t)
  := by
  unfold readSurrogate at h
  split at h
  next s =>
    cases hhex : readHex4 s with
    | none => simp only [hhex, reduceCtorEq] at h
    | some r =>
      simp only [hhex] at h
      simp only [List.cons_append, readSurrogate, readHex4_append hhex]
      split_ifs at h ⊢
      obtain ⟨hc, hrest⟩ := Prod.mk.inj (Option.some.inj h)
      rw [hc, hrest]
  next => cases h

theorem readEscape_u (s : List Char) :
  readEscape ('u' :: s)
    = match readHex4 s with
      | none => none
      | some (n, rest) =>
        if 0xdc00 ≤ n ∧ n ≤ 0xdfff then none
        else if 0xd800 ≤ n ∧ n ≤ 0xdbff then readSurrogate n rest
        else some (Char.ofNat n, rest)
  :=
  rfl

/-- An escape is read without a look at what follows. -/
theorem readEscape_append {s rest : List Char} {c : Char} (h : readEscape s = some (c, rest))
    (t : List Char) :
  readEscape (s ++ t) = some (c, rest ++ t)
  := by
  cases s with
  | nil => cases h
  | cons e s =>
    by_cases hu : e = 'u'
    · subst hu
      rw [readEscape_u] at h
      rw [List.cons_append, readEscape_u]
      cases hhex : readHex4 s with
      | none => simp [hhex] at h
      | some r =>
        obtain ⟨n, s'⟩ := r
        simp only [hhex, readHex4_append hhex] at h ⊢
        split_ifs at h ⊢
        · exact readSurrogate_append h t
        · obtain ⟨hc, hrest⟩ := Prod.mk.inj (Option.some.inj h)
          rw [hc, hrest]
    · simp only [List.cons_append, readEscape, if_neg hu] at h ⊢
      split_ifs at h ⊢
      all_goals
        obtain ⟨hc, hrest⟩ := Prod.mk.inj (Option.some.inj h)
        rw [hc, hrest]

/-- A string is read with more fuel, and when more text follows. -/
theorem readString_append {fuel : Nat} {s rest cs : List Char}
    (h : readString fuel s = some (cs, rest)) {more : Nat} (hmore : fuel ≤ more) (t : List Char) :
  readString more (s ++ t) = some (cs, rest ++ t)
  := by
  induction fuel generalizing s cs more with
  | zero => simp [readString] at h
  | succ fuel ih =>
    obtain ⟨more, rfl⟩ := Nat.exists_eq_succ_of_ne_zero (show more ≠ 0 by omega)
    cases s with
    | nil => simp [readString] at h
    | cons c s =>
      have htail {s' : List Char} {c' : Char}
          (h : (readString fuel s').map (fun r => (c' :: r.1, r.2)) = some (cs, rest)) :
          (readString more (s' ++ t)).map (fun r => (c' :: r.1, r.2)) = some (cs, rest ++ t) := by
        obtain ⟨r, hr, heq⟩ := Option.map_eq_some_iff.1 h
        obtain ⟨rfl, rfl⟩ := Prod.mk.inj heq
        rw [ih hr (Nat.le_of_succ_le_succ hmore)]
        rfl
      simp only [List.cons_append, readString] at h ⊢
      split_ifs at h ⊢ with hquote hescape
      · obtain ⟨rfl, rfl⟩ := Prod.mk.inj (Option.some.inj h)
        rfl
      · cases hread : readEscape s with
        | none => simp [hread] at h
        | some r =>
          simp only [hread, readEscape_append hread] at h ⊢
          exact htail h
      · exact htail h

/-! ### Numbers -/

/-- An integer that is followed by something is scanned whatever else follows. -/
theorem scanInt_append {s int rest : List Char} (h : scanInt s = some (int, rest))
    (hrest : rest ≠ []) (t : List Char) :
  scanInt (s ++ t) = some (int, rest ++ t)
  := by
  cases s with
  | nil => cases h
  | cons c s =>
    simp only [List.cons_append, scanInt] at h ⊢
    by_cases hzero : c = '0'
    · simp only [if_pos hzero] at h ⊢
      split_ifs at h with hdigit
      obtain ⟨rfl, rfl⟩ := Prod.mk.inj (Option.some.inj h)
      rw [List.head?_append_of_ne_nil _ hrest, if_neg hdigit]
    · simp only [if_neg hzero] at h ⊢
      split_ifs at h ⊢
      obtain ⟨rfl, rfl⟩ := Prod.mk.inj (Option.some.inj h)
      obtain ⟨hdrop, htake⟩ := List.dropWhile_append_of_ne_nil hrest t
      rw [htake, hdrop]

theorem scanDigits_append {s digits rest : List Char} (h : scanDigits s = some (digits, rest))
    (hrest : rest ≠ []) (t : List Char) :
  scanDigits (s ++ t) = some (digits, rest ++ t)
  := by
  unfold scanDigits at h ⊢
  split_ifs at h with hnil
  obtain ⟨rfl, rfl⟩ := Prod.mk.inj (Option.some.inj h)
  obtain ⟨hdrop, htake⟩ := List.dropWhile_append_of_ne_nil hrest t
  rw [htake, hdrop, if_neg hnil]

/-- A fraction that is followed by something is scanned whatever else follows. -/
theorem scanFrac_append {s frac rest : List Char} (h : scanFrac s = some (frac, rest))
    (hrest : rest ≠ []) (t : List Char) :
  scanFrac (s ++ t) = some (frac, rest ++ t)
  := by
  cases s with
  | nil =>
    cases h
    exact absurd rfl hrest
  | cons c s =>
    by_cases hc : c = '.'
    · subst hc
      obtain ⟨r, hr, heq⟩ := Option.map_eq_some_iff.1 h
      obtain ⟨rfl, rfl⟩ := Prod.mk.inj heq
      rw [List.cons_append, scanFrac, scanDigits_append hr hrest]
      rfl
    · have hscan (s : List Char) : scanFrac (c :: s) = some ([], c :: s) := by
        unfold scanFrac
        split
        · exact absurd (List.cons.inj ‹_›).1 hc
        · rfl
      rw [hscan] at h
      cases h
      exact hscan (s ++ t)

/-- The sign of an exponent. -/
def scanExpSign : List Char → List Char × List Char
  | '+' :: rest => (['+'], rest)
  | '-' :: rest => (['-'], rest)
  | s => ([], s)

theorem scanExpSign_other {s : List Char} (hplus : ∀ rest, s ≠ '+' :: rest)
    (hminus : ∀ rest, s ≠ '-' :: rest) :
  scanExpSign s = ([], s)
  := by
  unfold scanExpSign
  split
  · exact absurd rfl (hplus _)
  · exact absurd rfl (hminus _)
  · rfl

/-- An exponent starts with its letter, or there is none. -/
theorem scanExp_cons (c : Char) (s : List Char) :
  scanExp (c :: s)
    = if c = 'e' ∨ c = 'E' then
        (scanDigits (scanExpSign s).2).map fun r => (c :: ((scanExpSign s).1 ++ r.1), r.2)
      else some ([], c :: s)
  := by
  unfold scanExp
  dsimp only
  split_ifs
  · split
    · rfl
    · rfl
    · rw [scanExpSign_other ‹_› ‹_›]
      rfl
  · rfl

/-- The sign of an exponent is found in its first character. -/
theorem scanExpSign_append {s : List Char} (h : s ≠ []) (t : List Char) :
  scanExpSign (s ++ t) = ((scanExpSign s).1, (scanExpSign s).2 ++ t)
  := by
  cases s with
  | nil => exact absurd rfl h
  | cons c s =>
    by_cases hplus : c = '+'
    · subst hplus
      rfl
    by_cases hminus : c = '-'
    · subst hminus
      rfl
    have hscan (s : List Char) : scanExpSign (c :: s) = ([], c :: s) :=
      scanExpSign_other (fun _ h => hplus (List.cons.inj h).1) fun _ h => hminus (List.cons.inj h).1
    rw [List.cons_append, hscan, hscan]
    rfl

/-- An exponent that is followed by something is scanned whatever else follows. -/
theorem scanExp_append {s exp rest : List Char} (h : scanExp s = some (exp, rest))
    (hrest : rest ≠ []) (t : List Char) :
  scanExp (s ++ t) = some (exp, rest ++ t)
  := by
  cases s with
  | nil =>
    cases h
    exact absurd rfl hrest
  | cons c s =>
    rw [scanExp_cons] at h
    rw [List.cons_append, scanExp_cons]
    split_ifs at h ⊢
    · obtain ⟨r, hr, heq⟩ := Option.map_eq_some_iff.1 h
      obtain ⟨rfl, rfl⟩ := Prod.mk.inj heq
      have hs : s ≠ [] := by
        rintro rfl
        cases hr
      rw [scanExpSign_append hs, scanDigits_append hr hrest]
      rfl
    · obtain ⟨rfl, rfl⟩ := Prod.mk.inj (Option.some.inj h)
      rfl

/-- The sign of a number is found in its first character. -/
theorem scanSign_append {s : List Char} (h : s ≠ []) (t : List Char) :
  scanSign (s ++ t) = ((scanSign s).1, (scanSign s).2 ++ t)
  := by
  cases s with
  | nil => exact absurd rfl h
  | cons c s =>
    by_cases hc : c = '-'
    · subst hc
      rfl
    · have hscan (s : List Char) : scanSign (c :: s) = ([], c :: s) := by
        unfold scanSign
        split
        · exact absurd (List.cons.inj ‹_›).1 hc
        · rfl
      rw [List.cons_append, hscan, hscan]
      rfl

theorem scanFrac_ne_nil {s frac rest : List Char} (h : scanFrac s = some (frac, rest))
    (hrest : rest ≠ []) :
  s ≠ []
  := by
  rintro rfl
  cases h
  exact hrest rfl

theorem scanExp_ne_nil {s exp rest : List Char} (h : scanExp s = some (exp, rest))
    (hrest : rest ≠ []) :
  s ≠ []
  := by
  rintro rfl
  cases h
  exact hrest rfl

/-- A number that is followed by something is scanned whatever else follows. -/
theorem scanNumber_append {s text rest : List Char} {isInt : Bool}
    (h : scanNumber s = some (text, isInt, rest)) (hrest : rest ≠ []) (t : List Char) :
  scanNumber (s ++ t) = some (text, isInt, rest ++ t)
  := by
  obtain ⟨⟨int, s₁⟩, hint, hafter⟩ := Option.bind_eq_some_iff.1 h
  obtain ⟨⟨frac, s₂⟩, hfrac, hafter⟩ := Option.bind_eq_some_iff.1 hafter
  obtain ⟨⟨exp, s₃⟩, hexp, heq⟩ := Option.map_eq_some_iff.1 hafter
  cases heq
  have hs₂ := scanExp_ne_nil hexp hrest
  have hs₁ := scanFrac_ne_nil hfrac hs₂
  have hs : s ≠ [] := by
    rintro rfl
    cases hint
  simp only [scanNumber, scanSign_append hs, scanInt_append hint hs₁, scanFrac_append hfrac hs₂,
    scanExp_append hexp hrest, Option.bind_some, Option.map_some]

/-- A number that is followed by something is read whatever else follows. -/
theorem readNumber_append {s rest : List Char} {v : Json}
    (h : readNumber toDouble s = some (v, rest)) (hrest : rest ≠ []) (t : List Char) :
  readNumber toDouble (s ++ t) = some (v, rest ++ t)
  := by
  unfold readNumber at h
  cases hscan : scanNumber s with
  | none => simp only [hscan, reduceCtorEq] at h
  | some r =>
    obtain ⟨text, isInt, s'⟩ := r
    simp only [hscan] at h
    cases hint : (if isInt then readInt text else none) with
    | some n =>
      rw [hint] at h
      obtain ⟨rfl, rfl⟩ := Prod.mk.inj (Option.some.inj h)
      simp only [readNumber, scanNumber_append hscan hrest, hint]
    | none =>
      rw [hint] at h
      obtain ⟨bits, hbits, heq⟩ := Option.map_eq_some_iff.1 h
      obtain ⟨rfl, rfl⟩ := Prod.mk.inj heq
      simp only [readNumber, scanNumber_append hscan hrest, hint, hbits, Option.map_some]

/-- What is read as a number is an integer or a double. -/
theorem readNumber_isNumber {s rest : List Char} {v : Json}
    (h : readNumber toDouble s = some (v, rest)) :
  (∃ n, v = .num n) ∨ ∃ bits, v = .double bits
  := by
  unfold readNumber at h
  cases hscan : scanNumber s with
  | none => simp only [hscan, reduceCtorEq] at h
  | some r =>
    obtain ⟨text, isInt, s'⟩ := r
    simp only [hscan] at h
    cases hint : (if isInt then readInt text else none) with
    | some n =>
      rw [hint] at h
      exact .inl ⟨n, (Prod.mk.inj (Option.some.inj h)).1.symm⟩
    | none =>
      rw [hint] at h
      obtain ⟨bits, -, heq⟩ := Option.map_eq_some_iff.1 h
      exact .inr ⟨bits, (Prod.mk.inj heq).1.symm⟩

/-! ### Values -/

/-- The text of the value ends where the value does, whatever follows. -/
def Closed : Json → Prop
  | .num _ | .double _ => False
  | _ => True

theorem skipWs_append {s : List Char} (h : skipWs s ≠ []) (t : List Char) :
  skipWs (s ++ t) = skipWs s ++ t
  :=
  (List.dropWhile_append_of_ne_nil h t).1

theorem skipWs_eq_nil_iff {s : List Char} :
  skipWs s = [] ↔ Blank s
  :=
  List.dropWhile_eq_nil_iff

theorem head_skipWs_append {s : List Char} (h : skipWs s ≠ []) (t : List Char) :
  (skipWs (s ++ t)).head? = (skipWs s).head? ∧ (skipWs (s ++ t)).tail = (skipWs s).tail ++ t
  := by
  rw [skipWs_append h]
  exact ⟨List.head?_append_of_ne_nil _ h, List.tail_append_of_ne_nil h⟩

/-- A keyword is read without a look at what follows. -/
theorem keyword_append {w s rest : List Char} {n : Nat} {v a : Json}
    (h : (if s.take n = w then some (v, s.drop n) else none) = some (a, rest))
    (hn : w.length = n) (t : List Char) :
  (if (s ++ t).take n = w then some (v, (s ++ t).drop n) else none) = some (a, rest ++ t)
  := by
  split_ifs at h with htake
  have hlen : n ≤ s.length := by
    rw [← hn, ← htake, List.length_take]
    exact Nat.min_le_right ..
  obtain ⟨rfl, rfl⟩ := Prod.mk.inj (Option.some.inj h)
  rw [List.take_append_of_le_length hlen, List.drop_append_of_le_length hlen, if_pos htake]

/-- A value that is read with so much fuel is read with more of it, and when more text
follows, unless it is a number at the end. -/
def ExtendsValue (toDouble : List Char → Option UInt64) (fuel : Nat) : Prop :=
  ∀ dep s v rest, readValue toDouble fuel dep s = some (v, rest) → (rest = [] → Closed v) →
    ∀ more, fuel ≤ more → ∀ t, readValue toDouble more dep (s ++ t) = some (v, rest ++ t)

/-- So are elements up to the bracket. -/
def ExtendsElems (toDouble : List Char → Option UInt64) (fuel : Nat) : Prop :=
  ∀ dep s vs rest, readElems toDouble fuel dep s = some (vs, rest) →
    ∀ more, fuel ≤ more → ∀ t, readElems toDouble more dep (s ++ t) = some (vs, rest ++ t)

/-- So are members up to the brace. -/
def ExtendsMembers (toDouble : List Char → Option UInt64) (fuel : Nat) : Prop :=
  ∀ dep s ms rest, readMembers toDouble fuel dep s = some (ms, rest) →
    ∀ more, fuel ≤ more → ∀ t, readMembers toDouble more dep (s ++ t) = some (ms, rest ++ t)

theorem readValue_skipWs {fuel dep : Nat} {s : List Char} {r : Json × List Char}
    (h : readValue toDouble fuel dep s = some r) :
  skipWs s ≠ []
  := by
  intro hs
  cases fuel with
  | zero => simp [readValue] at h
  | succ fuel => simp [readValue, hs] at h

theorem readElems_skipWs {fuel dep : Nat} {s : List Char} {r : List Json × List Char}
    (h : readElems toDouble fuel dep s = some r) :
  skipWs s ≠ []
  := by
  cases fuel with
  | zero => simp [readElems] at h
  | succ fuel =>
    cases hv : readValue toDouble fuel dep s with
    | none => simp [readElems, hv] at h
    | some v => exact readValue_skipWs hv

theorem readMembers_skipWs {fuel dep : Nat} {s : List Char} {r : List (String × Json) × List Char}
    (h : readMembers toDouble fuel dep s = some r) :
  skipWs s ≠ []
  := by
  intro hs
  cases fuel with
  | zero => simp [readMembers] at h
  | succ fuel => simp [readMembers, hs] at h

/-- A value is read the same when more text follows, if its elements and members are: each
kind of value but a number ends with a character of its own. -/
theorem extends_readValue {fuel : Nat} (helems : ExtendsElems toDouble fuel)
    (hmembers : ExtendsMembers toDouble fuel) :
  ExtendsValue toDouble (fuel + 1)
  := by
  intro dep s v rest h hends more hmore t
  obtain ⟨more, rfl⟩ := Nat.exists_eq_succ_of_ne_zero (show more ≠ 0 by omega)
  have hle := Nat.le_of_succ_le_succ hmore
  obtain ⟨c, s', hs⟩ := List.exists_cons_of_ne_nil (readValue_skipWs h)
  have hs' : skipWs (s ++ t) = c :: (s' ++ t) := by
    rw [skipWs_append (by rw [hs]; simp), hs, List.cons_append]
  simp only [readValue, hs, hs'] at h ⊢
  by_cases hquote : c = '"'
  · simp only [if_pos hquote] at h ⊢
    obtain ⟨r, hr, heq⟩ := Option.map_eq_some_iff.1 h
    cases heq
    rw [readString_append hr hle]
    rfl
  simp only [if_neg hquote] at h ⊢
  by_cases hbracket : c = '['
  · simp only [if_pos hbracket] at h ⊢
    split_ifs at h with hdep hclose
    · have hne : skipWs s' ≠ [] := by
        intro hnil
        simp [hnil] at hclose
      obtain ⟨hhead, htail⟩ := head_skipWs_append hne t
      obtain ⟨rfl, rfl⟩ := Prod.mk.inj (Option.some.inj h)
      rw [if_neg hdep, hhead, if_pos hclose, htail]
    · obtain ⟨r, hr, heq⟩ := Option.map_eq_some_iff.1 h
      obtain ⟨rfl, rfl⟩ := Prod.mk.inj heq
      rw [if_neg hdep, (head_skipWs_append (readElems_skipWs hr) t).1, if_neg hclose,
        helems _ _ _ _ hr _ hle t]
      rfl
  simp only [if_neg hbracket] at h ⊢
  by_cases hbrace : c = '\x7b'
  · simp only [if_pos hbrace] at h ⊢
    split_ifs at h with hdep hclose
    · have hne : skipWs s' ≠ [] := by
        intro hnil
        simp [hnil] at hclose
      obtain ⟨hhead, htail⟩ := head_skipWs_append hne t
      obtain ⟨rfl, rfl⟩ := Prod.mk.inj (Option.some.inj h)
      rw [if_neg hdep, hhead, if_pos hclose, htail]
    · obtain ⟨r, hr, heq⟩ := Option.map_eq_some_iff.1 h
      obtain ⟨rfl, rfl⟩ := Prod.mk.inj heq
      rw [if_neg hdep, (head_skipWs_append (readMembers_skipWs hr) t).1, if_neg hclose,
        hmembers _ _ _ _ hr _ hle t]
      rfl
  simp only [if_neg hbrace] at h ⊢
  by_cases hnull : c = 'n'
  · simp only [if_pos hnull] at h ⊢
    exact keyword_append h rfl t
  simp only [if_neg hnull] at h ⊢
  by_cases htrue : c = 't'
  · simp only [if_pos htrue] at h ⊢
    exact keyword_append h rfl t
  simp only [if_neg htrue] at h ⊢
  by_cases hfalse : c = 'f'
  · simp only [if_pos hfalse] at h ⊢
    exact keyword_append h rfl t
  simp only [if_neg hfalse] at h ⊢
  have hrest : rest ≠ [] := by
    intro hnil
    have hclosed := hends hnil
    obtain ⟨n, rfl⟩ | ⟨bits, rfl⟩ := readNumber_isNumber h
    · exact hclosed
    · exact hclosed
  exact readNumber_append h hrest t

/-- What stands after a value that is read, up to a comma or the end. -/
theorem skipWs_after {after after' : List Char} {c : Char} (h : skipWs after = c :: after')
    (t : List Char) :
  after ≠ [] ∧ skipWs (after ++ t) = c :: (after' ++ t)
  := by
  have hne : skipWs after ≠ [] := by simp [h]
  refine ⟨?_, by rw [skipWs_append hne, h, List.cons_append]⟩
  rintro rfl
  exact hne rfl

/-- The elements of an array are read whatever follows the bracket, if the first of them and
the others are. -/
theorem extends_readElems {fuel : Nat} (hvalue : ExtendsValue toDouble fuel)
    (helems : ExtendsElems toDouble fuel) :
  ExtendsElems toDouble (fuel + 1)
  := by
  intro dep s vs rest h more hmore t
  obtain ⟨more, rfl⟩ := Nat.exists_eq_succ_of_ne_zero (show more ≠ 0 by omega)
  have hle := Nat.le_of_succ_le_succ hmore
  simp only [readElems] at h ⊢
  cases hv : readValue toDouble fuel dep s with
  | none => simp [hv] at h
  | some r =>
    obtain ⟨v, after⟩ := r
    simp only [hv] at h
    cases hafter : skipWs after with
    | nil => simp [hafter] at h
    | cons c after' =>
      obtain ⟨hnil, happend⟩ := skipWs_after hafter t
      simp only [hafter] at h
      simp only [hvalue _ _ _ _ hv (absurd · hnil) _ hle t, happend]
      split_ifs at h ⊢
      · obtain ⟨r, hr, heq⟩ := Option.map_eq_some_iff.1 h
        obtain ⟨rfl, rfl⟩ := Prod.mk.inj heq
        rw [helems _ _ _ _ hr _ hle t]
        rfl
      · obtain ⟨rfl, rfl⟩ := Prod.mk.inj (Option.some.inj h)
        rfl

/-- The members of an object are read whatever follows the brace, if the first of them and the
others are. -/
theorem extends_readMembers {fuel : Nat} (hvalue : ExtendsValue toDouble fuel)
    (hmembers : ExtendsMembers toDouble fuel) :
  ExtendsMembers toDouble (fuel + 1)
  := by
  intro dep s ms rest h more hmore t
  obtain ⟨hhead, htail⟩ := head_skipWs_append (readMembers_skipWs h) t
  obtain ⟨more, rfl⟩ := Nat.exists_eq_succ_of_ne_zero (show more ≠ 0 by omega)
  have hle := Nat.le_of_succ_le_succ hmore
  simp only [readMembers, hhead, htail] at h ⊢
  split_ifs at h ⊢
  cases hname : readString fuel (skipWs s).tail with
  | none => simp [hname] at h
  | some r =>
    obtain ⟨name, after⟩ := r
    simp only [hname, readString_append hname hle] at h ⊢
    split_ifs at h with hcolon
    have hne : skipWs after ≠ [] := by
      intro hnil
      simp [hnil] at hcolon
    obtain ⟨hhead, htail⟩ := head_skipWs_append hne t
    rw [hhead, if_pos hcolon, htail]
    cases hv : readValue toDouble fuel dep (skipWs after).tail with
    | none => simp [hv] at h
    | some r =>
      obtain ⟨v, after⟩ := r
      simp only [hv] at h
      cases hafter : skipWs after with
      | nil => simp [hafter] at h
      | cons c after' =>
        obtain ⟨hnil, happend⟩ := skipWs_after hafter t
        simp only [hafter] at h
        simp only [hvalue _ _ _ _ hv (absurd · hnil) _ hle t, happend]
        split_ifs at h ⊢
        · obtain ⟨r, hr, heq⟩ := Option.map_eq_some_iff.1 h
          obtain ⟨rfl, rfl⟩ := Prod.mk.inj heq
          rw [hmembers _ _ _ _ hr _ hle t]
          rfl
        · obtain ⟨rfl, rfl⟩ := Prod.mk.inj (Option.some.inj h)
          rfl

/-- With any fuel, what was read is read again whatever follows. -/
theorem extends_read (toDouble : List Char → Option UInt64) (fuel : Nat) :
  ExtendsValue toDouble fuel ∧ ExtendsElems toDouble fuel ∧ ExtendsMembers toDouble fuel
  := by
  induction fuel with
  | zero =>
    refine ⟨fun dep s v rest h => ?_, fun dep s vs rest h => ?_, fun dep s ms rest h => ?_⟩
    · simp [readValue] at h
    · simp [readElems] at h
    · simp [readMembers] at h
  | succ fuel ih =>
    obtain ⟨hvalue, helems, hmembers⟩ := ih
    exact ⟨extends_readValue helems hmembers, extends_readElems hvalue helems,
      extends_readMembers hvalue hmembers⟩

/-! ### Texts -/

/-- A text of a value that ends by itself is one of the same value when it is followed by
white space, and none when it is followed by anything else. -/
theorem readText_append {dep : Nat} {s : List Char} {v : Json} (h : readText toDouble dep s = some v)
    (hv : Closed v) (t : List Char) :
  readText toDouble dep (s ++ t) = if skipWs t = [] then some v else none
  := by
  unfold readText at h
  cases hread : readValue toDouble (s.length + 1) dep s with
  | none => simp [hread] at h
  | some r =>
    obtain ⟨v', rest⟩ := r
    simp only [hread] at h
    split_ifs at h with hrest
    cases h
    have hblank : Blank rest := skipWs_eq_nil_iff.1 hrest
    have happend := (extends_read toDouble (s.length + 1)).1 dep s v rest hread (fun _ => hv)
      ((s ++ t).length + 1) (by simp) t
    rw [readText, happend]
    simp only [skipWs_blank_append hblank]

/-- A text that starts with a brace is that of an object. -/
theorem readText_obj {dep : Nat} {s : List Char} {v : Json}
    (h : readText toDouble dep ('\x7b' :: s) = some v) :
  ∃ ms, v = .obj ms
  := by
  unfold readText at h
  cases hread : readValue toDouble (('\x7b' :: s).length + 1) dep ('\x7b' :: s) with
  | none => simp only [hread, reduceCtorEq] at h
  | some r =>
    obtain ⟨v', rest⟩ := r
    simp only [hread] at h
    split_ifs at h
    cases h
    simp only [readValue, skipWs_cons (show isWs '\x7b' = false from rfl)] at hread
    rw [if_neg (by decide), if_neg (by decide), if_pos trivial] at hread
    split_ifs at hread
    · exact ⟨[], (Prod.mk.inj (Option.some.inj hread)).1.symm⟩
    · obtain ⟨r, -, heq⟩ := Option.map_eq_some_iff.1 hread
      exact ⟨r.1, (Prod.mk.inj heq).1.symm⟩

theorem write_obj (st : Style) (d : Nat) (ms : List (String × Json)) :
  ∃ body, write st d (.obj ms) = '\x7b' :: (body ++ ['\x7d'])
  := by
  cases ms with
  | nil => exact ⟨[], rfl⟩
  | cons m ms =>
    refine ⟨st.newline (d + 1) ++ writeMember st (d + 1) m ++ writeMembers st (d + 1) ms
      ++ st.newline d, ?_⟩
    simp only [write, List.append_assoc]

/-- What remains of the text of an object that was cut off is no text. -/
theorem readText_cut {st : Style} (hst : st.Lawful) {ms : List (String × Json)}
    (hms : Writable (.obj ms)) {dep : Nat} (hdep : (Json.obj ms).depth ≤ dep) {s : List Char}
    (hs : s <+: write st 0 (.obj ms)) (hne : s ≠ write st 0 (.obj ms)) :
  readText st.doubles.parse dep s = none
  := by
  rw [Option.eq_none_iff_forall_ne_some]
  intro v hv
  obtain ⟨body, hbody⟩ := write_obj st 0 ms
  obtain ⟨t, ht⟩ := hs
  have htne : t ≠ [] := by
    rintro rfl
    exact hne (by rw [← ht, List.append_nil])
  have hlast : '\x7d' ∈ t := by
    have hcut : s ++ t = ('\x7b' :: body) ++ ['\x7d'] := by
      rw [ht, hbody, List.cons_append]
    have hend := congrArg List.getLast? hcut
    rw [List.getLast?_append_of_ne_nil _ htne, List.getLast?_concat] at hend
    exact List.mem_of_getLast? hend
  cases s with
  | nil => simp [readText, readValue, skipWs] at hv
  | cons c s =>
    have hc : c = '\x7b' := by
      rw [hbody] at ht
      exact (List.cons.inj ht).1
    subst hc
    obtain ⟨ms', rfl⟩ := readText_obj hv
    have happend := readText_append hv trivial t
    rw [ht, readText_write hst hms hdep] at happend
    split_ifs at happend with hblank
    exact absurd (skipWs_eq_nil_iff.1 hblank _ hlast) (by decide)

/-! ### Bytes -/

theorem toBytes_of_ofBytes {bytes : Bytes} {s : List Char} (h : ofBytes bytes = some s) :
  toBytes s = bytes
  := by
  obtain ⟨str, hstr, rfl⟩ := Option.map_eq_some_iff.1 h
  unfold String.fromUTF8? at hstr
  split_ifs at hstr with hvalid
  cases hstr
  simp [toBytes, String.fromUTF8]

theorem prefix_of_toBytes {s w : List Char} (h : toBytes s <+: toBytes w) :
  s <+: w
  := by
  obtain ⟨b, hb⟩ := h
  apply List.isPrefix_of_utf8Encode_append_eq_utf8Encode ⟨b.toArray⟩
  apply ByteArray.ext
  apply Array.toList_inj.1
  simpa [toBytes] using hb

theorem toBytes_ne_nil {s : List Char} (h : s ≠ []) :
  toBytes s ≠ []
  := by
  intro hnil
  have hprefix : toBytes s <+: toBytes [] := hnil ▸ List.nil_prefix
  exact h (List.prefix_nil.1 (prefix_of_toBytes hprefix))

/-- The bytes of an object that were cut off are not read. -/
theorem readBytes_cut {st : Style} (hst : st.Lawful) {ms : List (String × Json)}
    (hms : Writable (.obj ms)) {dep : Nat} (hdep : (Json.obj ms).depth ≤ dep) {bytes : Bytes}
    (h : bytes <+: toBytes (write st 0 (.obj ms))) (hne : bytes ≠ toBytes (write st 0 (.obj ms))) :
  readBytes st.doubles.parse dep bytes = none
  := by
  cases hs : ofBytes bytes with
  | none => rw [readBytes, hs, Option.bind_none]
  | some s =>
    have hbytes := toBytes_of_ofBytes hs
    rw [readBytes, hs, Option.bind_some]
    refine readText_cut hst hms hdep (prefix_of_toBytes (hbytes ▸ h)) fun heq => hne ?_
    rw [← hbytes, heq]

end Json
