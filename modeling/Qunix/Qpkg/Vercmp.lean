/-
Version comparison.

`cmp_segments` walks two versions at once: it drops separators, compares a run of
digits or letters from each side, and goes on while they are equal; at the end it looks
at what the longer side has left. `tokens` says what one version is, without the other:
its runs, whether a separator stands before each, and whether one is left at the end.
The walk computes a comparison of the two token sequences, `Tail.cmp`, which is defined
by recursion on them.
-/

import Mathlib.Data.List.Basic
import Mathlib.Data.List.TakeWhile

namespace Qunix.Qpkg

/-! ### The code -/

def isDigit (c : UInt8) : Bool := 0x30 ≤ c && c ≤ 0x39

def isAlphabetic (c : UInt8) : Bool := 0x41 ≤ c && c ≤ 0x5a || 0x61 ≤ c && c ≤ 0x7a

def isAlphanumeric (c : UInt8) : Bool := isAlphabetic c || isDigit c

def trimZeros (s : List UInt8) : List UInt8 := s.dropWhile fun c => c == 0x30

/-- Leading zeros are insignificant, then a longer run is a bigger number, then lexical
order decides. -/
def cmpNumeric (a b : List UInt8) : Ordering :=
  (compare (trimZeros a).length (trimZeros b).length).then (compare (trimZeros a) (trimZeros b))

def takeRun (s : List UInt8) (pred : UInt8 → Bool) : List UInt8 × List UInt8 :=
  s.splitAt (s.takeWhile pred).length

theorem takeRun_eq (s : List UInt8) (pred : UInt8 → Bool) :
    takeRun s pred = (s.takeWhile pred, s.dropWhile pred) := by
  have ht : (s.takeWhile pred ++ s.dropWhile pred).take (s.takeWhile pred).length =
      s.takeWhile pred := List.take_left
  have hd : (s.takeWhile pred ++ s.dropWhile pred).drop (s.takeWhile pred).length =
      s.dropWhile pred := List.drop_left
  rw [List.takeWhile_append_dropWhile] at ht hd
  rw [takeRun, List.splitAt_eq, ht, hd]

def skipSeparators (s : List UInt8) : List UInt8 := s.dropWhile fun c => !isAlphanumeric c

/-- The match after the loop; the arm marked unreachable panics. -/
def showdown : List UInt8 → List UInt8 → Option Ordering
  | [], [] => some .eq
  | c :: _, [] => some (if isAlphabetic c then .lt else .gt)
  | [], c :: _ => some (if isAlphabetic c then .gt else .lt)
  | _ :: _, _ :: _ => none

variable {s rest : List UInt8} {c : UInt8}

theorem isAlphanumeric_of_skip (h : skipSeparators s = c :: rest) :
    isAlphanumeric c = true := by
  have hh := List.head?_dropWhile_not (fun c => !isAlphanumeric c) s
  rw [skipSeparators] at h
  simpa [h] using hh

theorem length_run_lt {pred : UInt8 → Bool} (h : skipSeparators s = c :: rest)
    (hc : pred c = true) :
    ((skipSeparators s).dropWhile pred).length < s.length := by
  have hs : (skipSeparators s).length ≤ s.length := List.length_dropWhile_le ..
  have hrun : (rest.dropWhile pred).length ≤ rest.length := List.length_dropWhile_le ..
  rw [h] at hs ⊢
  rw [List.dropWhile_cons_of_pos hc]
  rw [List.length_cons] at hs
  omega

def cmpSegments (x y : List UInt8) : Option Ordering :=
  if x.isEmpty || y.isEmpty then showdown x y
  else
    match _hx : skipSeparators x, skipSeparators y with
    | cx :: _, cy :: _ =>
      if _hdigit : isDigit cx then
        -- a numeric segment outranks an alphabetic one
        if !isDigit cy then some .gt
        else
          let xs := takeRun (skipSeparators x) isDigit
          let ys := takeRun (skipSeparators y) isDigit
          match cmpNumeric xs.1 ys.1 with
          | .eq => cmpSegments xs.2 ys.2
          | ord => some ord
      else
        if isDigit cy then some .lt
        else
          let xs := takeRun (skipSeparators x) isAlphabetic
          let ys := takeRun (skipSeparators y) isAlphabetic
          match compare xs.1 ys.1 with
          | .eq => cmpSegments xs.2 ys.2
          | ord => some ord
    | x, y => showdown x y
termination_by x.length
decreasing_by
  · rw [takeRun_eq]
    exact length_run_lt _hx _hdigit
  · rw [takeRun_eq]
    refine length_run_lt _hx ?_
    simpa [isAlphanumeric, _hdigit] using isAlphanumeric_of_skip _hx

/-- The last place of a byte. -/
def rfind (s : List UInt8) (c : UInt8) : Option Nat :=
  (s.reverse.idxOf? c).map fun j => s.length - 1 - j

/-- `[epoch:]pkgver[-pkgrel]`. -/
def split (v : List UInt8) : List UInt8 × List UInt8 × Option (List UInt8) :=
  let (epoch, rest) :=
    match v.idxOf? 0x3a with
    | some i =>
      if 0 < i && (v.take i).all isDigit then (v.take i, v.drop (i + 1)) else ([0x30], v)
    | none => ([0x30], v)
  match rfind rest 0x2d with
  | some i => (epoch, rest.take i, some (rest.drop (i + 1)))
  | none => (epoch, rest, none)

/-- `then_with`, on a comparison that may panic. -/
def thenWith (o : Ordering) (k : Option Ordering) : Option Ordering :=
  match o with
  | .eq => k
  | o => some o

def vercmp (a b : List UInt8) : Option Ordering :=
  let (ae, av, ar) := split a
  let (be, bv, br) := split b
  thenWith (cmpNumeric ae be) do
    let o ← cmpSegments av bv
    thenWith o (match ar, br with
      -- a missing pkgrel matches any pkgrel
      | some x, some y => cmpSegments x y
      | _, _ => some .eq)

/-! ### Tokens -/

/-- What is left of a version. -/
inductive Tail where
  | done
  /-- Separators and nothing else. -/
  | separators
  | letters (separated : Bool) (run : List UInt8) (rest : Tail)
  | digits (separated : Bool) (run : List UInt8) (rest : Tail)
deriving DecidableEq

/-- With a separator before it. -/
def Tail.separate : Tail → Tail
  | .done => .separators
  | .separators => .separators
  | .letters _ run rest => .letters true run rest
  | .digits _ run rest => .digits true run rest

def tokens : List UInt8 → Tail
  | [] => .done
  | c :: s =>
    if isAlphabetic c then
      match tokens s with
      | .letters false run rest => .letters false (c :: run) rest
      | t => .letters false [c] t
    else if isDigit c then
      match tokens s with
      | .digits false run rest => .digits false (c :: run) rest
      | t => .digits false [c] t
    else (tokens s).separate

/-- Letters that are attached come before the end, letters after a separator and
separators alone after it, and numbers last; runs of one kind are compared with each
other, whatever stands before them. -/
def Tail.cmp : Tail → Tail → Ordering
  | .letters _ u s, .letters _ v t => (compare u v).then (s.cmp t)
  | .digits _ m s, .digits _ n t => (cmpNumeric m n).then (s.cmp t)
  | .done, .done => .eq
  | .done, .separators => .lt
  | .done, .letters separated _ _ => if separated then .lt else .gt
  | .done, .digits _ _ _ => .lt
  | .separators, .done => .gt
  | .separators, .separators => .eq
  | .separators, .letters _ _ _ => .gt
  | .separators, .digits _ _ _ => .lt
  | .letters separated _ _, .done => if separated then .gt else .lt
  | .letters _ _ _, .separators => .lt
  | .letters _ _ _, .digits _ _ _ => .lt
  | .digits _ _ _, _ => .gt

/-! ### The walk -/

section Walk

variable {c : UInt8} {s x y : List UInt8}

theorem tokens_separator (h : isAlphanumeric c = false) :
    tokens (c :: s) = (tokens s).separate := by
  simp only [isAlphanumeric, Bool.or_eq_false_iff] at h
  simp [tokens, h.1, h.2]

theorem separate_separate (t : Tail) : t.separate.separate = t.separate := by
  cases t <;> rfl

theorem not_isAlphabetic_of_isDigit (h : isDigit c = true) : isAlphabetic c = false := by
  simp only [isDigit, isAlphabetic, Bool.and_eq_true, decide_eq_true_eq,
    UInt8.le_iff_toNat_le] at h ⊢
  simp only [Bool.or_eq_false_iff, Bool.and_eq_false_iff, decide_eq_false_iff_not]
  simp only [UInt8.toNat_ofNat] at h ⊢
  omega

theorem tokens_letters (h : isAlphabetic c = true) : tokens (c :: s) =
    .letters false ((c :: s).takeWhile isAlphabetic)
      (tokens ((c :: s).dropWhile isAlphabetic)) := by
  induction s generalizing c with
  | nil => simp [tokens, h]
  | cons d s ih =>
    rw [tokens, if_pos h, List.takeWhile_cons_of_pos h, List.dropWhile_cons_of_pos h]
    by_cases hd : isAlphabetic d = true
    · rw [ih hd]
    · rw [List.takeWhile_cons_of_neg hd, List.dropWhile_cons_of_neg hd]
      -- another run starts here
      simp only [tokens, hd]
      by_cases hdi : isDigit d = true
      · simp only [hdi]
        cases tokens s with
        | digits separated run rest => cases separated <;> rfl
        | _ => rfl
      · simp only [hdi]
        cases tokens s <;> rfl

theorem tokens_digits (h : isDigit c = true) : tokens (c :: s) =
    .digits false ((c :: s).takeWhile isDigit) (tokens ((c :: s).dropWhile isDigit)) := by
  induction s generalizing c with
  | nil => simp [tokens, h, not_isAlphabetic_of_isDigit h]
  | cons d s ih =>
    rw [tokens, if_neg (by simp [not_isAlphabetic_of_isDigit h]), if_pos h,
      List.takeWhile_cons_of_pos h, List.dropWhile_cons_of_pos h]
    by_cases hd : isDigit d = true
    · rw [ih hd]
    · rw [List.takeWhile_cons_of_neg hd, List.dropWhile_cons_of_neg hd]
      simp only [tokens, hd]
      by_cases ha : isAlphabetic d = true
      · simp only [ha]
        cases tokens s with
        | letters separated run rest => cases separated <;> rfl
        | _ => rfl
      · simp only [ha]
        cases tokens s <;> rfl

theorem tokens_eq_skip (x : List UInt8) :
    skipSeparators x = x ∨ tokens x = (tokens (skipSeparators x)).separate := by
  induction x with
  | nil => exact .inl rfl
  | cons c s ih =>
    cases hc : isAlphanumeric c with
    | true => exact .inl (List.dropWhile_cons_of_neg (by simp [hc]))
    | false =>
      have hs : skipSeparators (c :: s) = skipSeparators s :=
        List.dropWhile_cons_of_pos (by simp [hc])
      rw [hs, tokens_separator hc]
      rcases ih with ih | ih
      · rw [ih]
        exact .inr rfl
      · rw [ih, separate_separate]
        exact .inr rfl

/-- The three ways a version that is not at its end goes on. -/
theorem tokens_of_skip_nil (hx : x ≠ []) (h : skipSeparators x = []) : tokens x = .separators := by
  rcases tokens_eq_skip x with heq | heq
  · exact absurd (heq.symm.trans h) hx
  · rw [heq, h]
    rfl

theorem tokens_of_skip_letter (h : skipSeparators x = c :: s) (hc : isAlphabetic c = true) :
    ∃ separated, tokens x = .letters separated ((c :: s).takeWhile isAlphabetic)
      (tokens ((c :: s).dropWhile isAlphabetic)) := by
  rcases tokens_eq_skip x with heq | heq
  · rw [← heq, h, tokens_letters hc]
    exact ⟨false, rfl⟩
  · rw [heq, h, tokens_letters hc]
    exact ⟨true, rfl⟩

theorem tokens_of_skip_digit (h : skipSeparators x = c :: s) (hc : isDigit c = true) :
    ∃ separated, tokens x = .digits separated ((c :: s).takeWhile isDigit)
      (tokens ((c :: s).dropWhile isDigit)) := by
  rcases tokens_eq_skip x with heq | heq
  · rw [← heq, h, tokens_digits hc]
    exact ⟨false, rfl⟩
  · rw [heq, h, tokens_digits hc]
    exact ⟨true, rfl⟩

theorem isAlphabetic_of_not_isDigit (h : skipSeparators x = c :: s) (hc : isDigit c = false) :
    isAlphabetic c = true := by
  simpa [isAlphanumeric, hc] using isAlphanumeric_of_skip h

/-- A side that ended against what the other has left, separators included. -/
theorem cmp_done (c : UInt8) (s : List UInt8) :
    Tail.done.cmp (tokens (c :: s)) = (if isAlphabetic c then .gt else .lt) ∧
    (tokens (c :: s)).cmp .done = (if isAlphabetic c then .lt else .gt) := by
  cases ha : isAlphabetic c with
  | true =>
    rw [tokens_letters ha]
    exact ⟨rfl, rfl⟩
  | false =>
    cases hd : isDigit c with
    | true =>
      rw [tokens_digits hd]
      exact ⟨rfl, rfl⟩
    | false =>
      rw [tokens_separator (by simp [isAlphanumeric, ha, hd])]
      cases tokens s <;> exact ⟨rfl, rfl⟩

theorem showdown_of_end (h : x = [] ∨ y = []) :
    showdown x y = some ((tokens x).cmp (tokens y)) := by
  cases x with
  | nil =>
    cases y with
    | nil => rfl
    | cons c s => rw [showdown, tokens, (cmp_done c s).1]
  | cons c s =>
    cases y with
    | nil => rw [showdown, tokens, (cmp_done c s).2]
    | cons d r => simp at h

theorem showdown_skipped (h : skipSeparators x = c :: s) :
    showdown [] (c :: s) = some (Tail.separators.cmp (tokens x)) ∧
      showdown (c :: s) [] = some ((tokens x).cmp .separators) := by
  cases hc : isDigit c with
  | true =>
    obtain ⟨separated, ht⟩ := tokens_of_skip_digit h hc
    rw [ht, showdown, showdown, not_isAlphabetic_of_isDigit hc]
    exact ⟨rfl, rfl⟩
  | false =>
    have ha := isAlphabetic_of_not_isDigit h hc
    obtain ⟨separated, ht⟩ := tokens_of_skip_letter h ha
    rw [ht, showdown, showdown, ha]
    exact ⟨rfl, rfl⟩

/-- Separators that ended against what the other has left after its separators. -/
theorem showdown_of_skip (hx : x ≠ []) (hy : y ≠ [])
    (h : skipSeparators x = [] ∨ skipSeparators y = []) :
    showdown (skipSeparators x) (skipSeparators y) = some ((tokens x).cmp (tokens y)) := by
  cases hsx : skipSeparators x with
  | nil =>
    rw [tokens_of_skip_nil hx hsx]
    cases hsy : skipSeparators y with
    | nil => rw [tokens_of_skip_nil hy hsy]; rfl
    | cons c s => exact (showdown_skipped hsy).1
  | cons c s =>
    have hsy : skipSeparators y = [] := by simpa [hsx] using h
    rw [hsy, tokens_of_skip_nil hy hsy]
    exact (showdown_skipped hsx).2

theorem cmpSegments_eq (x y : List UInt8) : cmpSegments x y = some ((tokens x).cmp (tokens y)) := by
  induction hn : x.length using Nat.strongRecOn generalizing x y with
  | ind n ih =>
    subst hn
    rw [cmpSegments]
    split_ifs with he
    · apply showdown_of_end
      simpa using he
    · simp only [Bool.or_eq_true, List.isEmpty_iff, not_or] at he
      split
      · rename_i cx rx cy ry hx hy
        simp only [takeRun_eq]
        cases hcx : isDigit cx with
        | true =>
          obtain ⟨sx, htx⟩ := tokens_of_skip_digit hx hcx
          cases hcy : isDigit cy with
          | false =>
            obtain ⟨sy, hty⟩ := tokens_of_skip_letter hy (isAlphabetic_of_not_isDigit hy hcy)
            rw [htx, hty]
            rfl
          | true =>
            obtain ⟨sy, hty⟩ := tokens_of_skip_digit hy hcy
            rw [htx, hty, Tail.cmp, hx, hy]
            have hlt := length_run_lt hx hcx
            rw [hx] at hlt
            rw [ih _ hlt _ _ rfl]
            cases cmpNumeric ((cx :: rx).takeWhile isDigit) ((cy :: ry).takeWhile isDigit) <;> rfl
        | false =>
          have hax := isAlphabetic_of_not_isDigit hx hcx
          obtain ⟨sx, htx⟩ := tokens_of_skip_letter hx hax
          rw [dif_neg (by simp)]
          cases hcy : isDigit cy with
          | true =>
            obtain ⟨sy, hty⟩ := tokens_of_skip_digit hy hcy
            rw [htx, hty]
            rfl
          | false =>
            obtain ⟨sy, hty⟩ := tokens_of_skip_letter hy (isAlphabetic_of_not_isDigit hy hcy)
            rw [htx, hty, Tail.cmp, hx, hy]
            have hlt := length_run_lt hx hax
            rw [hx] at hlt
            rw [ih _ hlt _ _ rfl]
            cases compare ((cx :: rx).takeWhile isAlphabetic)
              ((cy :: ry).takeWhile isAlphabetic) <;> rfl
      · rename_i hnot
        apply showdown_of_skip he.1 he.2
        cases hx : skipSeparators x with
        | nil => exact .inl rfl
        | cons cx rx =>
          cases hy : skipSeparators y with
          | nil => exact .inr rfl
          | cons cy ry => exact (hnot cx rx cy ry hx hy).elim

end Walk

end Qunix.Qpkg
