import Mcfreeze.Lib.Bytes
import Mcfreeze.Lib.Lists
import Mathlib.Data.List.TakeWhile

/-!
# Streaming parsers

A streaming parser run on the bytes received so far yields a value and the bytes left,
reports that more bytes are needed, or fails.  `Stable p` says that a verdict of `p` other
than `incomplete` is final: bytes that arrive later change neither the value nor the
failure.  `Advances n p` says that `p` consumes a prefix of its input of at least `n`
bytes.  Every combinator below preserves both.

`WaitsFor x y p` says that `p` does not wait for more once the bytes `x`, `y` have arrived.
It is preserved by sequencing after parsers that do not consume `x`, `Skips x`.
-/

namespace Streaming

/-- The kinds of failure. -/
inductive ErrorKind where
  | tag
  | space
  | takeWhile1
  | digit
  | mapRes
  deriving DecidableEq, Repr

/-- The verdict of a streaming parser. -/
inductive IResult (α : Type) where
  | done (rest : Bytes) (value : α)
  | incomplete
  | error (kind : ErrorKind)
  deriving DecidableEq, Repr

/-- A streaming parser. -/
abbrev Parser (α : Type) := Bytes → IResult α

variable {α β : Type}

/-- Consume nothing and yield `a`. -/
def succeed (a : α) : Parser α :=
  fun input => .done input a

/-- Run `p`, then `f` on the bytes `p` left. -/
def andThen (p : Parser α) (f : α → Parser β) : Parser β :=
  fun input =>
    match p input with
    | .done rest a => f a rest
    | .incomplete => .incomplete
    | .error kind => .error kind

/-- A sequence is done when both parts are. -/
theorem andThen_eq_done {p : Parser α} {f : α → Parser β} {b rest : Bytes} {c : β}
    (h : andThen p f b = .done rest c) :
  ∃ r a, p b = .done r a ∧ f a r = .done rest c
  := by
  unfold andThen at h
  cases hb : p b with
  | done r a =>
    rw [hb] at h
    exact ⟨r, a, rfl, h⟩
  | incomplete => simp [hb] at h
  | error kind => simp [hb] at h

/-- The bytes of `t`; more are needed while the input is a proper prefix of `t`. -/
def tag : Bytes → Parser Unit
  | [], input => .done input ()
  | _ :: _, [] => .incomplete
  | t :: ts, b :: bs => if b = t then tag ts bs else .error .tag

/-- The longest non-empty run of bytes that satisfy `cond`, known to be over only when a
byte that does not satisfy it has arrived. -/
def run1 (cond : UInt8 → Bool) (kind : ErrorKind) : Parser Bytes :=
  fun input =>
    match input.dropWhile cond with
    | [] => .incomplete
    | b :: rest =>
      if input.takeWhile cond = [] then .error kind
      else .done (b :: rest) (input.takeWhile cond)

/-- Everything before the first occurrence of the two bytes `x`, `y`. -/
def takeUntil2 (x y : UInt8) : Parser Bytes
  | [] => .incomplete
  | [_] => .incomplete
  | a :: b :: rest =>
    if a = x ∧ b = y then .done (a :: b :: rest) []
    else
      match takeUntil2 x y (b :: rest) with
      | .done left taken => .done left (a :: taken)
      | .incomplete => .incomplete
      | .error kind => .error kind

/-- Run `p`; a failure of `p` consumes nothing and yields `none`. -/
def opt (p : Parser α) : Parser (Option α) :=
  fun input =>
    match p input with
    | .done rest a => .done rest (some a)
    | .incomplete => .incomplete
    | .error _ => .done input none

/-- Run `p`, and `q` on the same input if `p` fails. -/
def orElse (p q : Parser α) : Parser α :=
  fun input =>
    match p input with
    | .error _ => q input
    | verdict => verdict

/-- A choice is done when one of its parts is. -/
theorem orElse_eq_done {p q : Parser α} {b rest : Bytes} {a : α} (h : orElse p q b = .done rest a) :
  p b = .done rest a ∨ q b = .done rest a
  := by
  unfold orElse at h
  cases hb : p b with
  | done r a' =>
    rw [hb] at h
    exact Or.inl h
  | incomplete => simp [hb] at h
  | error kind =>
    rw [hb] at h
    exact Or.inr h

/-- Run `p` and convert its value; a failed conversion is a failure. -/
def mapRes (p : Parser α) (f : α → Option β) : Parser β :=
  fun input =>
    match p input with
    | .done rest a =>
      match f a with
      | some b => .done rest b
      | none => .error .mapRes
    | .incomplete => .incomplete
    | .error kind => .error kind

/-- A mapped parser ends where the parser does, with a value that was accepted. -/
theorem mapRes_eq_done {p : Parser α} {f : α → Option β} {b rest : Bytes} {c : β}
    (h : mapRes p f b = .done rest c) :
  ∃ a, p b = .done rest a ∧ f a = some c
  := by
  unfold mapRes at h
  cases hb : p b with
  | done r a =>
    rw [hb] at h
    cases hf : f a with
    | some c' =>
      simp only [hf, IResult.done.injEq] at h
      obtain ⟨rfl, rfl⟩ := h
      exact ⟨a, rfl, hf⟩
    | none => simp [hf] at h
  | incomplete => simp [hb] at h
  | error kind => simp [hb] at h

/-- Run `opt p` over and over, folding the values, until it yields `none`; at most
`fuel` times. -/
def foldFuel (p : Parser α) (f : β → α → β) : Nat → β → Parser β
  | 0, _, _ => .incomplete
  | fuel + 1, acc, input =>
    match opt p input with
    | .done rest (some a) => foldFuel p f fuel (f acc a) rest
    | .done rest none => .done rest acc
    | .incomplete => .incomplete
    | .error kind => .error kind

/-- Run `opt p` over and over, folding the values, until it yields `none`.  A parser that
consumes at least a byte succeeds at most once for each byte of the input. -/
def foldMany (p : Parser α) (f : β → α → β) (acc : β) : Parser β :=
  fun input => foldFuel p f (input.length + 1) acc input

/-! ### Stability -/

/-- A value or a failure of `p` stays the same when more bytes arrive. -/
structure Stable (p : Parser α) : Prop where
  done {b e rest : Bytes} {a : α} (h : p b = .done rest a) : p (b ++ e) = .done (rest ++ e) a
  error {b e : Bytes} {kind : ErrorKind} (h : p b = .error kind) : p (b ++ e) = .error kind

/-- `p` consumes a prefix of at least `n` bytes. -/
def Advances (n : Nat) (p : Parser α) : Prop :=
  ∀ ⦃b rest : Bytes⦄ ⦃a : α⦄, p b = .done rest a → ∃ front, b = front ++ rest ∧ n ≤ front.length

theorem Advances.length_le {n : Nat} {p : Parser α} (h : Advances n p) {b rest : Bytes} {a : α}
    (hp : p b = .done rest a) :
  rest.length + n ≤ b.length
  := by
  obtain ⟨front, rfl, hn⟩ := h hp
  simp only [List.length_append]
  omega

theorem Advances.mono {m n : Nat} {p : Parser α} (h : Advances n p) (hmn : m ≤ n) :
  Advances m p
  := by
  intro b rest a hp
  obtain ⟨front, hb, hn⟩ := h hp
  exact ⟨front, hb, by omega⟩

theorem stable_succeed (a : α) :
  Stable (succeed a)
  := by
  constructor
  · intro b e rest a' h
    simp only [succeed, IResult.done.injEq] at h ⊢
    exact ⟨by rw [h.1], h.2⟩
  · intro b e kind h
    cases h

theorem advances_succeed (a : α) :
  Advances 0 (succeed a)
  := by
  intro b rest a' h
  simp only [succeed, IResult.done.injEq] at h
  exact ⟨[], by simp [h.1], by simp⟩

/-- A sequence of stable parsers is stable. -/
theorem Stable.andThen {p : Parser α} {f : α → Parser β} (hp : Stable p)
    (hf : ∀ a, Stable (f a)) :
  Stable (andThen p f)
  := by
  constructor
  · intro b e rest c h
    unfold Streaming.andThen at h ⊢
    cases hb : p b with
    | done r a =>
      rw [hb] at h
      rw [hp.done hb]
      apply (hf a).done h
    | incomplete => simp [hb] at h
    | error kind => simp [hb] at h
  · intro b e kind h
    unfold Streaming.andThen at h ⊢
    cases hb : p b with
    | done r a =>
      rw [hb] at h
      rw [hp.done hb]
      apply (hf a).error h
    | incomplete => simp [hb] at h
    | error kind' =>
      rw [hb] at h
      rw [hp.error hb]
      exact h

/-- A sequence consumes what its parts do. -/
theorem Advances.andThen {m n : Nat} {p : Parser α} {f : α → Parser β} (hp : Advances m p)
    (hf : ∀ a, Advances n (f a)) :
  Advances (m + n) (andThen p f)
  := by
  intro b rest c h
  obtain ⟨r, a, hb, ha⟩ := andThen_eq_done h
  obtain ⟨x, rfl, hx⟩ := hp hb
  obtain ⟨y, rfl, hy⟩ := hf a ha
  refine ⟨x ++ y, (List.append_assoc _ _ _).symm, ?_⟩
  simp only [List.length_append]
  omega

theorem Advances.skip {m : Nat} {p : Parser α} {f : α → Parser β} (hp : Advances m p)
    (hf : ∀ a, Advances 0 (f a)) :
  Advances 0 (Streaming.andThen p f)
  := (hp.andThen hf).mono (Nat.zero_le _)

/-- A fixed text consumes itself. -/
theorem tag_done {t b rest : Bytes} {u : Unit} (h : tag t b = .done rest u) :
  b = t ++ rest
  := by
  induction t generalizing b with
  | nil => simpa [tag] using h
  | cons x xs ih =>
    cases b with
    | nil => simp [tag] at h
    | cons y ys =>
      simp only [tag] at h
      split at h
      · next hxy => rw [hxy, ih h, List.cons_append]
      · cases h

theorem tag_append (t rest : Bytes) :
  tag t (t ++ rest) = .done rest ()
  := by
  induction t with
  | nil => rfl
  | cons x xs ih => simp [tag, ih]

/-- The parser of a fixed text is stable. -/
theorem stable_tag (t : Bytes) :
  Stable (tag t)
  := by
  constructor
  · intro b e rest u h
    rw [tag_done h, List.append_assoc, tag_append]
  · intro b e kind h
    induction t generalizing b with
    | nil => simp [tag] at h
    | cons x xs ih =>
      cases b with
      | nil => simp [tag] at h
      | cons y ys =>
        simp only [tag, List.cons_append] at h ⊢
        split at h
        · next hxy => rw [if_pos hxy, ih h]
        · next hxy => rw [if_neg hxy, h]

theorem advances_tag (t : Bytes) :
  Advances t.length (tag t)
  := fun _ _ _ h => ⟨t, tag_done h, le_refl _⟩

/-- A run consumes all bytes of its kind, at least one, and sees one more. -/
theorem run1_done {cond : UInt8 → Bool} {kind : ErrorKind} {b rest taken : Bytes}
    (h : run1 cond kind b = .done rest taken) :
  rest = b.dropWhile cond ∧ taken = b.takeWhile cond ∧ rest ≠ [] ∧ taken ≠ []
  := by
  unfold run1 at h
  split at h
  · cases h
  · next x xs hx =>
    split at h
    · cases h
    · next ht =>
      simp only [IResult.done.injEq] at h
      obtain ⟨rfl, rfl⟩ := h
      exact ⟨hx.symm, rfl, by simp, ht⟩

theorem run1_append {cond : UInt8 → Bool} {kind : ErrorKind} {word : Bytes} {c : UInt8}
    (hne : word ≠ []) (hword : ∀ b ∈ word, cond b = true) (hc : cond c = false) (rest : Bytes) :
  run1 cond kind (word ++ c :: rest) = .done (c :: rest) word
  := by
  have htake : (word ++ c :: rest).takeWhile cond = word := by
    rw [List.takeWhile_append_of_pos hword, List.takeWhile_cons_of_neg (by simp [hc]), List.append_nil]
  have hdrop : (word ++ c :: rest).dropWhile cond = c :: rest := by
    rw [List.dropWhile_append_of_pos hword, List.dropWhile_cons_of_neg (by simp [hc])]
  simp only [run1, htake, hdrop, hne, if_false]

/-- The parser of a run of bytes is stable. -/
theorem stable_run1 (cond : UInt8 → Bool) (kind : ErrorKind) :
  Stable (run1 cond kind)
  := by
  constructor
  · intro b e rest taken h
    obtain ⟨rfl, rfl, hne, ht⟩ := run1_done h
    obtain ⟨hd, htk⟩ := List.dropWhile_append_of_ne_nil hne e
    obtain ⟨x, xs, hx⟩ := List.exists_cons_of_ne_nil hne
    unfold run1
    rw [hd, htk, hx]
    simp [ht]
  · intro b e kind' h
    unfold run1 at h ⊢
    split at h
    · cases h
    · next x xs hx =>
      split at h
      · next ht =>
        obtain ⟨hd, htk⟩ := List.dropWhile_append_of_ne_nil (by simp [hx] : b.dropWhile cond ≠ []) e
        rw [hd, htk, hx]
        simp only [List.cons_append]
        rw [if_pos ht]
        exact h
      · cases h

theorem advances_run1 (cond : UInt8 → Bool) (kind : ErrorKind) :
  Advances 1 (run1 cond kind)
  := by
  intro b rest taken h
  obtain ⟨rfl, rfl, -, ht⟩ := run1_done h
  refine ⟨b.takeWhile cond, List.takeWhile_append_dropWhile.symm, ?_⟩
  exact List.length_pos_of_ne_nil ht

/-- What is taken ends before the two bytes. -/
theorem takeUntil2_done {x y : UInt8} {b rest taken : Bytes}
    (h : takeUntil2 x y b = .done rest taken) :
  b = taken ++ rest ∧ ∃ tail, rest = x :: y :: tail
  := by
  induction b generalizing taken with
  | nil => simp [takeUntil2] at h
  | cons a b' ih =>
    cases b' with
    | nil => simp [takeUntil2] at h
    | cons c rest' =>
      simp only [takeUntil2] at h
      split at h
      · next hac =>
        simp only [IResult.done.injEq] at h
        obtain ⟨rfl, rfl⟩ := h
        exact ⟨rfl, rest', by rw [hac.1, hac.2]⟩
      · split at h
        · next left taken' hrec =>
          simp only [IResult.done.injEq] at h
          obtain ⟨rfl, rfl⟩ := h
          obtain ⟨hb, htail⟩ := ih hrec
          exact ⟨by rw [List.cons_append, ← hb], htail⟩
        · cases h
        · cases h

/-- Everything before the two bytes is taken. -/
theorem takeUntil2_append {x y : UInt8} {front : Bytes} (h : x ∉ front) (rest : Bytes) :
  takeUntil2 x y (front ++ x :: y :: rest) = .done (x :: y :: rest) front
  := by
  induction front with
  | nil => simp [takeUntil2]
  | cons a front ih =>
    rw [List.mem_cons, not_or] at h
    have hrest := ih h.2
    obtain ⟨c, tail, htail⟩ : ∃ c tail, front ++ x :: y :: rest = c :: tail :=
      List.exists_cons_of_ne_nil (by simp)
    rw [List.cons_append, htail, takeUntil2, if_neg (fun hax => h.1 hax.1.symm), ← htail, hrest]

/-- The search for two bytes does not fail. -/
theorem takeUntil2_ne_error {x y : UInt8} {b : Bytes} {kind : ErrorKind} :
  takeUntil2 x y b ≠ .error kind
  := by
  induction b with
  | nil => simp [takeUntil2]
  | cons a b' ih =>
    cases b' with
    | nil => simp [takeUntil2]
    | cons c rest' =>
      simp only [takeUntil2]
      split
      · simp
      · split
        · simp
        · simp
        · next kind' hrec =>
          intro h
          rw [IResult.error.injEq] at h
          exact ih (h ▸ hrec)

/-- The parser of everything before two bytes is stable. -/
theorem stable_takeUntil2 (x y : UInt8) :
  Stable (takeUntil2 x y)
  := by
  constructor
  · intro b e rest taken h
    induction b generalizing taken with
    | nil => simp [takeUntil2] at h
    | cons a b' ih =>
      cases b' with
      | nil => simp [takeUntil2] at h
      | cons c rest' =>
        simp only [takeUntil2, List.cons_append] at h ⊢
        split at h
        · next hac =>
          simp only [IResult.done.injEq] at h
          obtain ⟨rfl, rfl⟩ := h
          rw [if_pos hac]
          rfl
        · next hac =>
          rw [if_neg hac]
          split at h
          · next left taken' hrec =>
            simp only [IResult.done.injEq] at h
            obtain ⟨rfl, rfl⟩ := h
            rw [← List.cons_append, ih hrec]
          · cases h
          · cases h
  · intro b e kind h
    exact absurd h takeUntil2_ne_error

theorem advances_takeUntil2 (x y : UInt8) :
  Advances 0 (takeUntil2 x y)
  := fun _ _ taken h => ⟨taken, (takeUntil2_done h).1, Nat.zero_le _⟩

/-- A choice of stable parsers is stable. -/
theorem Stable.orElse {p q : Parser α} (hp : Stable p) (hq : Stable q) :
  Stable (orElse p q)
  := by
  constructor
  · intro b e rest a h
    unfold Streaming.orElse at h ⊢
    cases hb : p b with
    | done r a' =>
      rw [hb] at h
      rw [hp.done hb]
      simp only [IResult.done.injEq] at h ⊢
      exact ⟨by rw [h.1], h.2⟩
    | incomplete => simp [hb] at h
    | error kind =>
      rw [hb] at h
      rw [hp.error hb]
      apply hq.done h
  · intro b e kind h
    unfold Streaming.orElse at h ⊢
    cases hb : p b with
    | done r a' => simp [hb] at h
    | incomplete => simp [hb] at h
    | error kind' =>
      rw [hb] at h
      rw [hp.error hb]
      apply hq.error h

theorem Advances.orElse {n : Nat} {p q : Parser α} (hp : Advances n p) (hq : Advances n q) :
  Advances n (orElse p q)
  := by
  intro b rest a h
  rcases orElse_eq_done h with hb | hb
  · apply hp hb
  · apply hq hb

/-- A mapped parser is as stable as the parser. -/
theorem Stable.mapRes {p : Parser α} (hp : Stable p) (f : α → Option β) :
  Stable (mapRes p f)
  := by
  constructor
  · intro b e rest c h
    unfold Streaming.mapRes at h ⊢
    cases hb : p b with
    | done r a =>
      rw [hb] at h
      rw [hp.done hb]
      cases hf : f a with
      | some c' =>
        simp only [hf, IResult.done.injEq] at h ⊢
        exact ⟨by rw [h.1], h.2⟩
      | none => simp [hf] at h
    | incomplete => simp [hb] at h
    | error kind => simp [hb] at h
  · intro b e kind h
    unfold Streaming.mapRes at h ⊢
    cases hb : p b with
    | done r a =>
      rw [hb] at h
      rw [hp.done hb]
      cases hf : f a with
      | some c' => simp [hf] at h
      | none => simpa [hf] using h
    | incomplete => simp [hb] at h
    | error kind' =>
      rw [hb] at h
      rw [hp.error hb]
      exact h

theorem Advances.mapRes {n : Nat} {p : Parser α} (hp : Advances n p) (f : α → Option β) :
  Advances n (mapRes p f)
  := by
  intro b rest c h
  obtain ⟨a, hb, -⟩ := mapRes_eq_done h
  apply hp hb

/-! ### Repetition -/

/-- For a parser that consumes at least a byte each time, every amount of fuel beyond the
number of bytes gives the same verdict, and later bytes do not change it. -/
theorem foldFuel_stable
    {p : Parser α} (hp : Stable p) (hadv : Advances 1 p) (f : β → α → β) (fuel : Nat) :
  ∀ (fuel' : Nat) (acc : β) (b e : Bytes), b.length < fuel → (b ++ e).length < fuel' →
    (∀ rest c, foldFuel p f fuel acc b = .done rest c →
      foldFuel p f fuel' acc (b ++ e) = .done (rest ++ e) c)
    ∧ ∀ kind, foldFuel p f fuel acc b ≠ .error kind
  := by
  induction fuel with
  | zero =>
    intro fuel' acc b e hb
    omega
  | succ fuel ih =>
    intro fuel' acc b e hb hbe
    have hbe' : b.length + e.length < fuel' := by simpa using hbe
    obtain ⟨fuel'', rfl⟩ : ∃ k, fuel' = k + 1 := ⟨fuel' - 1, by omega⟩
    cases hpb : p b with
    | done r a =>
      have hr := hadv.length_le hpb
      have hre : (r ++ e).length < fuel'' := by
        simp only [List.length_append]
        omega
      have hnext := ih fuel'' (f acc a) r e (by omega) hre
      simpa only [foldFuel, opt, hpb, hp.done hpb] using hnext
    | incomplete => simp [foldFuel, opt, hpb]
    | error kind =>
      constructor
      · intro rest c h
        simp only [foldFuel, opt, hpb, IResult.done.injEq] at h
        obtain ⟨rfl, rfl⟩ := h
        simp [foldFuel, opt, hp.error hpb]
      · simp [foldFuel, opt, hpb]

/-- A repetition of a stable parser that gets on is stable. -/
theorem Stable.foldMany
    {p : Parser α} (hp : Stable p) (hadv : Advances 1 p) (f : β → α → β) (acc : β) :
  Stable (foldMany p f acc)
  := by
  constructor
  · intro b e rest c h
    apply (foldFuel_stable hp hadv f _ _ acc b e (Nat.lt_succ_self _) (Nat.lt_succ_self _)).1
    apply h
  · intro b e kind h
    have hne := (foldFuel_stable hp hadv f _ _ acc b e (Nat.lt_succ_self _)
      (Nat.lt_succ_self _)).2 kind
    exact absurd h hne

/-- A repetition consumes a prefix, perhaps an empty one. -/
theorem Advances.foldMany {p : Parser α} (hadv : Advances 1 p) (f : β → α → β) (acc : β) :
  Advances 0 (foldMany p f acc)
  := by
  intro b rest c h
  rw [Streaming.foldMany] at h
  generalize b.length + 1 = fuel at h
  induction fuel generalizing acc b with
  | zero => simp [foldFuel] at h
  | succ fuel ih =>
    cases hpb : p b with
    | done r a =>
      simp only [foldFuel, opt, hpb] at h
      obtain ⟨x, rfl, -⟩ := hadv hpb
      obtain ⟨y, rfl, -⟩ := ih (f acc a) h
      exact ⟨x ++ y, (List.append_assoc _ _ _).symm, Nat.zero_le _⟩
    | incomplete => simp [foldFuel, opt, hpb] at h
    | error kind =>
      simp only [foldFuel, opt, hpb, IResult.done.injEq] at h
      exact ⟨[], by simp [h.1], by simp⟩

/-! ### Waiting -/

section

variable {x y : UInt8}

/-- `p` consumes a prefix without the byte `x`. -/
def Skips (x : UInt8) (p : Parser α) : Prop :=
  ∀ ⦃b rest : Bytes⦄ ⦃a : α⦄, p b = .done rest a → ∃ front, b = front ++ rest ∧ x ∉ front

/-- `p` needs more bytes only as long as `x`, `y` have not arrived. -/
def WaitsFor (x y : UInt8) (p : Parser α) : Prop :=
  ∀ ⦃b : Bytes⦄, p b = .incomplete → ¬ [x, y] <:+: b

theorem not_infix_of_not_mem {b : Bytes} (h : x ∉ b) :
  ¬ [x, y] <:+: b
  := by
  intro hin
  apply h
  apply hin.subset
  simp

/-- The two bytes do not arrive with a front that has not the first of them. -/
theorem not_infix_append {front rest : Bytes} (hfront : x ∉ front) (hrest : ¬ [x, y] <:+: rest) :
  ¬ [x, y] <:+: front ++ rest
  := by
  induction front with
  | nil => exact hrest
  | cons a front ih =>
    rw [List.mem_cons, not_or] at hfront
    rw [List.cons_append, List.infix_cons_iff, not_or]
    constructor
    · intro hpre
      apply hfront.1 (List.cons_prefix_cons.mp hpre).1
    · apply ih hfront.2

theorem Skips.andThen {p : Parser α} {f : α → Parser β} (hp : Skips x p) (hf : ∀ a, Skips x (f a)) :
  Skips x (andThen p f)
  := by
  intro b rest c h
  obtain ⟨r, a, hb, ha⟩ := andThen_eq_done h
  obtain ⟨front, rfl, hfront⟩ := hp hb
  obtain ⟨front', rfl, hfront'⟩ := hf a ha
  refine ⟨front ++ front', (List.append_assoc _ _ _).symm, ?_⟩
  rw [List.mem_append, not_or]
  exact ⟨hfront, hfront'⟩

/-- A sequence waits for the two bytes if its parts do, the first of which must keep off the
first byte. -/
theorem WaitsFor.andThen {p : Parser α} {f : α → Parser β} (hp : WaitsFor x y p) (hskip : Skips x p)
    (hf : ∀ a, WaitsFor x y (f a)) :
  WaitsFor x y (andThen p f)
  := by
  intro b h
  unfold Streaming.andThen at h
  cases hb : p b with
  | done r a =>
    rw [hb] at h
    obtain ⟨front, rfl, hfront⟩ := hskip hb
    apply not_infix_append hfront (hf a h)
  | incomplete => apply hp hb
  | error kind => simp [hb] at h

/-- A fixed text needs more bytes only behind a proper prefix of it. -/
theorem tag_incomplete {t b : Bytes} (h : tag t b = .incomplete) :
  b <+: t ∧ b.length < t.length
  := by
  induction t generalizing b with
  | nil => simp [tag] at h
  | cons c t ih =>
    cases b with
    | nil => simp
    | cons d b =>
      simp only [tag] at h
      split at h
      · next hcd =>
        obtain ⟨hpre, hlen⟩ := ih h
        rw [hcd, List.cons_prefix_cons]
        exact ⟨⟨rfl, hpre⟩, Nat.succ_lt_succ hlen⟩
      · cases h

theorem skips_tag {t : Bytes} (h : x ∉ t) :
  Skips x (tag t)
  := fun _ _ _ hb => ⟨t, tag_done hb, h⟩

theorem waitsFor_tag {t : Bytes} (h : x ∉ t) :
  WaitsFor x y (tag t)
  := by
  intro b hb
  apply not_infix_of_not_mem
  intro hx
  apply h ((tag_incomplete hb).1.subset hx)

/-- The tag `x`, `y` itself waits for no more than its two bytes. -/
theorem waitsFor_tag_self :
  WaitsFor x y (tag [x, y])
  := by
  intro b hb hin
  have hlen := hin.length_le
  have hlt := (tag_incomplete hb).2
  simp only [List.length_cons, List.length_nil] at hlen hlt
  omega

theorem skips_run1 {cond : UInt8 → Bool} {kind : ErrorKind} (h : cond x = false) :
  Skips x (run1 cond kind)
  := by
  intro b rest taken hb
  obtain ⟨rfl, rfl, -, -⟩ := run1_done hb
  refine ⟨b.takeWhile cond, List.takeWhile_append_dropWhile.symm, ?_⟩
  intro hx
  have hcond := List.mem_takeWhile_imp hx
  simp [h] at hcond

/-- A run waits for the two bytes if the first of them ends it. -/
theorem waitsFor_run1 {cond : UInt8 → Bool} {kind : ErrorKind} (h : cond x = false) :
  WaitsFor x y (run1 cond kind)
  := by
  intro b hb
  unfold run1 at hb
  split at hb
  · next hdrop =>
    apply not_infix_of_not_mem
    intro hx
    rw [List.dropWhile_eq_nil_iff] at hdrop
    have hcond := hdrop x hx
    simp [h] at hcond
  · split at hb <;> cases hb

/-- The search for two bytes needs more bytes only as long as they have not arrived. -/
theorem waitsFor_takeUntil2 :
  WaitsFor x y (takeUntil2 x y)
  := by
  intro b h
  induction b with
  | nil => simp
  | cons a b ih =>
    cases b with
    | nil =>
      intro hin
      simpa using hin.length_le
    | cons c b =>
      simp only [takeUntil2] at h
      split at h
      · cases h
      · next hne =>
        split at h
        · cases h
        · next hrest =>
          rw [List.infix_cons_iff, not_or]
          constructor
          · intro hpre
            obtain ⟨hxa, htail⟩ := List.cons_prefix_cons.mp hpre
            apply hne ⟨hxa.symm, (List.cons_prefix_cons.mp htail).1.symm⟩
          · apply ih hrest
        · cases h

/-- What is left after everything before `x`, `y` starts with these two bytes, so that the
tag that takes them does not wait. -/
theorem waitsFor_takeUntil2_tag {f : Bytes → Unit → Parser α}
    (hf : ∀ taken u b, f taken u b ≠ .incomplete) :
  WaitsFor x y (Streaming.andThen (takeUntil2 x y) fun taken => Streaming.andThen (tag [x, y]) (f taken))
  := by
  intro b h
  unfold Streaming.andThen at h
  cases hb : takeUntil2 x y b with
  | done r taken =>
    obtain ⟨-, tail, rfl⟩ := takeUntil2_done hb
    simp only [hb, tag, if_true] at h
    exact absurd h (hf taken () tail)
  | incomplete => apply waitsFor_takeUntil2 hb
  | error kind => simp [hb] at h

/-- A choice waits for the two bytes if its parts do. -/
theorem WaitsFor.orElse {p q : Parser α} (hp : WaitsFor x y p) (hq : WaitsFor x y q) :
  WaitsFor x y (orElse p q)
  := by
  intro b h
  unfold Streaming.orElse at h
  cases hb : p b with
  | done r a => simp [hb] at h
  | incomplete => apply hp hb
  | error kind =>
    rw [hb] at h
    apply hq h

theorem Skips.orElse {p q : Parser α} (hp : Skips x p) (hq : Skips x q) :
  Skips x (orElse p q)
  := by
  intro b rest a h
  rcases orElse_eq_done h with hb | hb
  · apply hp hb
  · apply hq hb

/-- A mapped parser waits for the two bytes if the parser does. -/
theorem WaitsFor.mapRes {p : Parser α} (hp : WaitsFor x y p) (f : α → Option β) :
  WaitsFor x y (mapRes p f)
  := by
  intro b h
  unfold Streaming.mapRes at h
  cases hb : p b with
  | done r a =>
    rw [hb] at h
    cases hf : f a with
    | some c => simp [hf] at h
    | none => simp [hf] at h
  | incomplete => apply hp hb
  | error kind => simp [hb] at h

theorem Skips.mapRes {p : Parser α} (hp : Skips x p) (f : α → Option β) :
  Skips x (mapRes p f)
  := by
  intro b rest c h
  obtain ⟨a, hb, -⟩ := mapRes_eq_done h
  apply hp hb

/-- A repetition consumes no more bytes of a kind than its parts do. -/
theorem Skips.foldMany {p : Parser α} (hp : Skips x p) (f : β → α → β) (acc : β) :
  Skips x (foldMany p f acc)
  := by
  intro b rest c h
  rw [Streaming.foldMany] at h
  generalize b.length + 1 = fuel at h
  induction fuel generalizing acc b with
  | zero => simp [foldFuel] at h
  | succ fuel ih =>
    cases hpb : p b with
    | done r a =>
      simp only [foldFuel, opt, hpb] at h
      obtain ⟨front, rfl, hfront⟩ := hp hpb
      obtain ⟨front', rfl, hfront'⟩ := ih (f acc a) h
      refine ⟨front ++ front', (List.append_assoc _ _ _).symm, ?_⟩
      rw [List.mem_append, not_or]
      exact ⟨hfront, hfront'⟩
    | incomplete => simp [foldFuel, opt, hpb] at h
    | error kind =>
      simp only [foldFuel, opt, hpb, IResult.done.injEq] at h
      exact ⟨[], by simp [h.1], by simp⟩

/-- A repetition waits for the two bytes if its part does, which must get on and keep off the
first of them. -/
theorem WaitsFor.foldMany {p : Parser α} (hp : WaitsFor x y p) (hskip : Skips x p)
    (hadv : Advances 1 p) (f : β → α → β) (acc : β) :
  WaitsFor x y (foldMany p f acc)
  := by
  intro b h
  rw [Streaming.foldMany] at h
  have hfuel : b.length < b.length + 1 := Nat.lt_succ_self _
  generalize b.length + 1 = fuel at h hfuel
  induction fuel generalizing acc b with
  | zero => omega
  | succ fuel ih =>
    cases hpb : p b with
    | done r a =>
      simp only [foldFuel, opt, hpb] at h
      have hlen := hadv.length_le hpb
      obtain ⟨front, rfl, hfront⟩ := hskip hpb
      apply not_infix_append hfront (ih (f acc a) h (by omega))
    | incomplete => apply hp hpb
    | error kind => simp [foldFuel, opt, hpb] at h

end

end Streaming
