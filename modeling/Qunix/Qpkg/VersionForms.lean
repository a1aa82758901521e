/-
Versions of the documented forms.

Where a common part ends in a digit and what follows it does not begin with one, `tokens`
puts the tokens of the suffix after those of the common part, so that suffixes are compared
as if nothing stood before them. A dotted version has one run of digits for each number,
and two runs are compared as the numbers they write.
-/

import Mathlib.Algebra.Order.Ring.Nat
import Qunix.Qpkg.VersionOrder

namespace Qunix.Qpkg

/-! ### The parts of a version -/

section Split

variable {s u v w : List UInt8} {c d : UInt8}

theorem idxOf?_append_cons (h : c ∉ u) : (u ++ c :: w).idxOf? c = some u.length := by
  induction u with
  | nil => simp [List.idxOf?_cons]
  | cons d u ih =>
    rw [List.mem_cons, not_or] at h
    rw [List.cons_append, List.idxOf?_cons, ih h.2, if_neg (by simpa using Ne.symm h.1)]
    rfl

theorem rfind_append_cons (h : c ∉ w) : rfind (u ++ c :: w) c = some u.length := by
  have hr : (u ++ c :: w).reverse = w.reverse ++ c :: u.reverse := by simp
  rw [rfind, hr, idxOf?_append_cons (by simpa using h), Option.map_some]
  simp only [List.length_reverse, List.length_append, List.length_cons, Option.some.injEq]
  omega

theorem rfind_of_notMem (h : c ∉ s) : rfind s c = none := by
  rw [rfind, List.idxOf?_eq_none_iff.mpr (by simpa using h)]
  rfl

theorem split_plain (hc : 0x3a ∉ v) (hd : 0x2d ∉ v) : split v = ([0x30], v, none) := by
  simp [split, List.idxOf?_eq_none_iff.mpr hc, rfind_of_notMem hd]

end Split

/-! ### Suffixes -/

namespace Tail

/-- The last token is a number. -/
inductive Numbered : Tail → Prop where
  | last (separated : Bool) (run : List UInt8) : Numbered (.digits separated run .done)
  | letters (separated : Bool) (run : List UInt8) {s : Tail} (h : Numbered s) :
      Numbered (.letters separated run s)
  | digits (separated : Bool) (run : List UInt8) {s : Tail} (h : Numbered s) :
      Numbered (.digits separated run s)

def append : Tail → Tail → Tail
  | .done, t => t
  | .separators, t => t.separate
  | .letters separated run s, t => .letters separated run (s.append t)
  | .digits separated run s, t => .digits separated run (s.append t)

theorem Numbered.cmp_append {r : Tail} (h : Numbered r) (s t : Tail) :
    (r.append s).cmp (r.append t) = s.cmp t := by
  induction h with
  | last _ run => simp [append, cmp, cmpNumeric_self]
  | letters _ run _ ih => simp [append, cmp, ih]
  | digits _ run _ ih => simp [append, cmp, cmpNumeric_self, ih]

end Tail

section Suffixes

variable {u v w a b n : List UInt8} {c d : UInt8}

/-- The text does not go on with a digit. -/
def Breaks (w : List UInt8) : Prop := ∀ run rest, tokens w ≠ .digits false run rest

theorem tokens_append (hd : isDigit d = true) (hw : Breaks w) :
    (tokens (u ++ [d])).Numbered ∧
      tokens (u ++ d :: w) = (tokens (u ++ [d])).append (tokens w) := by
  induction u with
  | nil =>
    simp only [List.nil_append, tokens, not_isAlphabetic_of_isDigit hd, hd]
    refine ⟨.last .., ?_⟩
    cases ht : tokens w with
    | digits separated run rest =>
      cases separated with
      | false => exact absurd ht (hw run rest)
      | true => rfl
    | _ => rfl
  | cons c u ih =>
    obtain ⟨hn, heq⟩ := ih
    rw [List.cons_append, List.cons_append, tokens, tokens, heq]
    generalize tokens (u ++ [d]) = t at hn
    -- the token that the first byte joins or goes before
    cases hn with
    | last separated run =>
      cases separated <;> split_ifs <;> exact ⟨by repeat constructor, rfl⟩
    | letters separated run h =>
      cases separated <;> split_ifs <;> exact ⟨by repeat first | exact h | constructor, rfl⟩
    | digits separated run h =>
      cases separated <;> split_ifs <;> exact ⟨by repeat first | exact h | constructor, rfl⟩

theorem cmp_tokens_append (hd : isDigit d = true) (ha : Breaks a) (hb : Breaks b) :
    (tokens (u ++ d :: a)).cmp (tokens (u ++ d :: b)) = (tokens a).cmp (tokens b) := by
  obtain ⟨hn, heq⟩ := tokens_append (u := u) hd ha
  rw [heq, (tokens_append hd hb).2, hn.cmp_append]

theorem tokens_alphabetic (ha : a ≠ []) (h : ∀ c ∈ a, isAlphabetic c = true) :
    tokens a = .letters false a .done := by
  obtain ⟨c, s, rfl⟩ := List.exists_cons_of_ne_nil ha
  rw [tokens_letters (h c List.mem_cons_self), List.takeWhile_eq_self_iff.mpr h,
    List.dropWhile_eq_nil_iff.mpr h]
  rfl

theorem tokens_numeric (hn : n ≠ []) (h : ∀ c ∈ n, isDigit c = true) :
    tokens n = .digits false n .done := by
  obtain ⟨c, s, rfl⟩ := List.exists_cons_of_ne_nil hn
  rw [tokens_digits (h c List.mem_cons_self), List.takeWhile_eq_self_iff.mpr h,
    List.dropWhile_eq_nil_iff.mpr h]
  rfl

/-- One is below the other, whichever is asked about. -/
def Precedes (x y : List UInt8) : Prop := vercmp x y = some .lt ∧ vercmp y x = some .gt

/-- No separator of epoch or release. -/
def Plain (v : List UInt8) : Prop := 0x3a ∉ v ∧ 0x2d ∉ v

theorem Plain.append (hu : Plain u) (hv : Plain v) : Plain (u ++ v) :=
  ⟨by simp [hu.1, hv.1], by simp [hu.2, hv.2]⟩

theorem plain_of_isAlphanumeric (h : ∀ c ∈ v, isAlphanumeric c = true) : Plain v :=
  ⟨fun hc => absurd (h _ hc) (by decide), fun hc => absurd (h _ hc) (by decide)⟩

theorem Plain.precedes (hu : Plain u) (hv : Plain v) (h : (tokens u).cmp (tokens v) = .lt) :
    Precedes u v := by
  have hlt : (version u).cmp (version v) = .lt := by
    rw [Version.cmp, version, version, split_plain hu.1 hu.2, split_plain hv.1 hv.2]
    simp [cmpNumeric_self, h]
  refine ⟨by rw [vercmp_eq, hlt], ?_⟩
  rw [vercmp_eq, Version.cmp_swap, hlt]
  rfl

/-- Attached letters sort among themselves and before the version, a separated trailer after
it, and a separated number after separated letters. -/
theorem suffixes_ordered (v a b n : List UInt8) (hv : Plain v)
    (hd : ∃ d, v.getLast? = some d ∧ isDigit d = true)
    (ha : a ≠ []) (ha' : ∀ c ∈ a, isAlphabetic c = true)
    (hb : b ≠ []) (hb' : ∀ c ∈ b, isAlphabetic c = true)
    (hab : compare a b = .lt) (hn : ∀ c ∈ n, isDigit c = true) :
    Precedes (v ++ a) (v ++ b) ∧ Precedes (v ++ a) v ∧ Precedes v (v ++ 0x2e :: a) ∧
      Precedes (v ++ 0x2e :: a) (v ++ 0x2e :: n) := by
  obtain ⟨d, hl, hd⟩ := hd
  obtain ⟨u, rfl⟩ := List.getLast?_eq_some_iff.mp hl
  have hta := tokens_alphabetic ha ha'
  have htb := tokens_alphabetic hb hb'
  have hda : tokens (0x2e :: a) = .letters true a .done := by
    rw [tokens_separator rfl, hta]
    rfl
  have hdn : tokens (0x2e :: n) = .separators ∨ tokens (0x2e :: n) = .digits true n .done := by
    rw [tokens_separator rfl]
    rcases eq_or_ne n [] with rfl | hne
    · exact .inl rfl
    · rw [tokens_numeric hne hn]
      exact .inr rfl
  have hpa : Plain a := plain_of_isAlphanumeric fun c hc => by simp [isAlphanumeric, ha' c hc]
  have hpb : Plain b := plain_of_isAlphanumeric fun c hc => by simp [isAlphanumeric, hb' c hc]
  have hpn : Plain n := plain_of_isAlphanumeric fun c hc => by simp [isAlphanumeric, hn c hc]
  have hdot : Plain [0x2e] := by simp [Plain]
  have hno : Plain [] := by simp [Plain]
  have below {x y : List UInt8} (hx : Plain x) (hy : Plain y) (hbx : Breaks x) (hby : Breaks y)
      (h : (tokens x).cmp (tokens y) = .lt) : Precedes (u ++ [d] ++ x) (u ++ [d] ++ y) := by
    refine (hv.append hx).precedes (hv.append hy) ?_
    rw [List.append_assoc, List.append_assoc, List.singleton_append, List.singleton_append,
      cmp_tokens_append hd hbx hby, h]
  have hnil : Breaks [] := by simp [Breaks, tokens]
  refine ⟨?_, ?_, ?_, ?_⟩
  · exact below hpa hpb (by simp [Breaks, hta]) (by simp [Breaks, htb])
      (by simp [hta, htb, Tail.cmp, hab])
  · simpa using below (y := []) hpa hno (by simp [Breaks, hta]) hnil (by rw [hta]; rfl)
  · simpa using below (x := []) hno (hdot.append hpa) hnil (by simp [Breaks, hda])
      (by simp only [List.singleton_append, hda]; rfl)
  · refine below (hdot.append hpa) (hdot.append hpn) (by simp [Breaks, hda]) ?_ ?_ <;>
      rcases hdn with h | h <;> simp [Breaks, hda, h, Tail.cmp]

end Suffixes

/-- `1.0a`, `1.0b` and `1.0.7`. -/
theorem suffixes_ordered_one :
    Precedes [0x31, 0x2e, 0x30, 0x61] [0x31, 0x2e, 0x30, 0x62] ∧
    Precedes [0x31, 0x2e, 0x30, 0x2e, 0x61] [0x31, 0x2e, 0x30, 0x2e, 0x37] :=
  have h := suffixes_ordered [0x31, 0x2e, 0x30] [0x61] [0x62] [0x37] (by simp [Plain])
    ⟨0x30, rfl, rfl⟩ (by simp) (by simp [isAlphabetic]) (by simp) (by simp [isAlphabetic])
    (by decide) (by simp [isDigit])
  ⟨h.1, h.2.2.2⟩

/-! ### Numbers -/

/-- The number that digits write. -/
def value : List UInt8 → Nat
  | [] => 0
  | c :: s => (c.toNat - 0x30) * 10 ^ s.length + value s

def Digits (s : List UInt8) : Prop := ∀ c ∈ s, isDigit c = true

section Numbers

variable {a b s : List UInt8} {c d : UInt8}

theorem isDigit_iff : isDigit c = true ↔ 0x30 ≤ c.toNat ∧ c.toNat ≤ 0x39 := by
  simp [isDigit, UInt8.le_iff_toNat_le]

theorem value_cons_lt {k : Nat} (ha : value a < 10 ^ a.length) (hk : c.toNat - 0x30 < k) :
    value (c :: a) < k * 10 ^ a.length :=
  calc value (c :: a) < (c.toNat - 0x30) * 10 ^ a.length + 10 ^ a.length := Nat.add_lt_add_left ha _
    _ = (c.toNat - 0x30 + 1) * 10 ^ a.length := (Nat.succ_mul ..).symm
    _ ≤ k * 10 ^ a.length := Nat.mul_le_mul_right _ hk

theorem value_lt (h : Digits s) : value s < 10 ^ s.length := by
  induction s with
  | nil => simp [value]
  | cons c s ih =>
    have hc := isDigit_iff.mp (h c List.mem_cons_self)
    rw [List.length_cons, Nat.pow_succ']
    exact value_cons_lt (ih fun d hd => h d (List.mem_cons_of_mem c hd)) (by omega)

theorem value_lt_of_compare (ha : Digits a) (hb : Digits b) (hlen : a.length = b.length)
    (h : compare a b = .lt) : value a < value b := by
  induction a generalizing b with
  | nil =>
    obtain rfl := List.length_eq_zero_iff.mp hlen.symm
    cases h
  | cons c a ih =>
    obtain ⟨d, b, rfl⟩ := List.exists_cons_of_length_eq_add_one hlen.symm
    have ha' : Digits a := fun e he => ha e (List.mem_cons_of_mem c he)
    rw [List.length_cons, List.length_cons, Nat.add_right_cancel_iff] at hlen
    rw [List.compare_cons_cons] at h
    rcases Ordering.then_eq_lt.mp h with hlt | ⟨heq, hlt⟩
    · have hcd := UInt8.lt_iff_toNat_lt.mp (Std.compare_eq_lt.mp hlt)
      have hc := isDigit_iff.mp (ha c List.mem_cons_self)
      have := value_cons_lt (value_lt ha') (c := c) (k := d.toNat - 0x30) (by omega)
      rw [hlen] at this
      exact Nat.lt_add_right _ this
    · obtain rfl := Std.LawfulEqOrd.compare_eq_iff_eq.mp heq
      have := ih ha' (fun e he => hb e (List.mem_cons_of_mem c he)) hlen hlt
      rw [value, value, hlen]
      omega

theorem value_trimZeros (s : List UInt8) : value (trimZeros s) = value s := by
  induction s with
  | nil => rfl
  | cons c s ih =>
    rcases eq_or_ne c 0x30 with rfl | hc
    · rw [trimZeros, value]
      simpa [trimZeros] using ih
    · rw [trimZeros, List.dropWhile_cons_of_neg (by simpa using hc)]

theorem Digits.trimZeros (h : Digits s) : Digits (trimZeros s) :=
  fun c hc => h c ((List.dropWhile_sublist _).mem hc)

theorem value_lt_of_cmpNumeric (ha : Digits a) (hb : Digits b) (h : cmpNumeric a b = .lt) :
    value a < value b := by
  rw [← value_trimZeros a, ← value_trimZeros b]
  rcases Ordering.then_eq_lt.mp h with hlt | ⟨heq, hlt⟩
  · -- the longer number has a first digit that is not zero
    rw [Nat.compare_eq_lt] at hlt
    obtain ⟨d, t, ht⟩ : ∃ d t, trimZeros b = d :: t :=
      List.exists_cons_of_ne_nil (List.ne_nil_of_length_pos (Nat.zero_lt_of_lt hlt))
    have hd := isDigit_iff.mp (hb.trimZeros d (ht ▸ List.mem_cons_self))
    have hne : d ≠ 0x30 := by
      have := List.head?_dropWhile_not (fun c => c == 0x30) b
      rw [← trimZeros, ht] at this
      simpa using this
    have hne' : d.toNat ≠ 0x30 := fun h => hne (UInt8.toNat_inj.mp h)
    rw [ht, List.length_cons] at hlt
    rw [ht, value]
    calc value (trimZeros a) < 10 ^ (trimZeros a).length := value_lt ha.trimZeros
      _ ≤ 10 ^ t.length := Nat.pow_le_pow_right (by decide) (by omega)
      _ ≤ (d.toNat - 0x30) * 10 ^ t.length := Nat.le_mul_of_pos_left _ (by omega)
      _ ≤ (d.toNat - 0x30) * 10 ^ t.length + value t := Nat.le_add_right ..
  · exact value_lt_of_compare ha.trimZeros hb.trimZeros (Nat.compare_eq_eq.mp heq) hlt

theorem cmpNumeric_eq_compare (ha : Digits a) (hb : Digits b) :
    cmpNumeric a b = compare (value a) (value b) := by
  cases h : cmpNumeric a b with
  | lt => exact (Nat.compare_eq_lt.mpr (value_lt_of_cmpNumeric ha hb h)).symm
  | eq =>
    rw [← value_trimZeros a, cmpNumeric_eq_iff.mp h, value_trimZeros]
    exact (Nat.compare_eq_eq.mpr rfl).symm
  | gt =>
    have hs : cmpNumeric b a = .lt := Std.OrientedCmp.gt_iff_lt.mp h
    exact (Nat.compare_eq_gt.mpr (value_lt_of_cmpNumeric hb ha hs)).symm

end Numbers

/-- A number as it is written. -/
structure Numeral where
  text : List UInt8
  ne_nil : text ≠ []
  digits : Digits text

theorem Numeral.plain (n : Numeral) : Plain n.text :=
  plain_of_isAlphanumeric fun c hc => by simp [isAlphanumeric, n.digits c hc]

/-- The form `[epoch:]d₁.d₂.….dₖ[-pkgrel]`. -/
structure Dotted where
  epoch : Option Numeral
  first : Numeral
  more : List Numeral
  pkgrel : Option Numeral

namespace Dotted

def dots (ns : List Numeral) : List UInt8 := ns.flatMap fun n => 0x2e :: n.text

def pkgver (v : Dotted) : List UInt8 := v.first.text ++ dots v.more

def text (v : Dotted) : List UInt8 :=
  (v.epoch.elim [] fun e => e.text ++ [0x3a]) ++ v.pkgver ++
    v.pkgrel.elim [] fun r => 0x2d :: r.text

def numbers (v : Dotted) : List Nat := (v.first :: v.more).map fun n => value n.text

/-- The tokens after the first number. -/
def tail : List Numeral → Tail
  | [] => .done
  | n :: ns => .digits true n.text (tail ns)

theorem tokens_numeral_append (n : Numeral) {w : List UInt8} (hw : Breaks w) :
    tokens (n.text ++ w) = .digits false n.text (tokens w) := by
  obtain ⟨u, d, heq⟩ := (List.eq_nil_or_concat' n.text).resolve_left n.ne_nil
  have hd : isDigit d = true := n.digits d (by simp [heq])
  have ht := tokens_numeric n.ne_nil n.digits
  rw [heq] at ht ⊢
  rw [List.append_assoc, List.singleton_append, (tokens_append hd hw).2, ht]
  rfl

theorem tokens_dots (ns : List Numeral) : tokens (dots ns) = tail ns := by
  induction ns with
  | nil => rfl
  | cons n ns ih =>
    have hb : Breaks (dots ns) := by
      intro run rest
      rw [ih]
      cases ns <;> simp [tail]
    change tokens (0x2e :: (n.text ++ dots ns)) = _
    rw [tokens_separator rfl, tokens_numeral_append n hb, ih]
    rfl

theorem tokens_pkgver (v : Dotted) :
    tokens v.pkgver = .digits false v.first.text (tail v.more) := by
  rw [pkgver, tokens_numeral_append, tokens_dots]
  intro run rest
  rw [tokens_dots]
  cases v.more <;> simp [tail]

theorem cmp_tail (ms ns : List Numeral) :
    (tail ms).cmp (tail ns) = compare (ms.map (value ·.text)) (ns.map (value ·.text)) := by
  induction ms generalizing ns with
  | nil => cases ns <;> rfl
  | cons m ms ih =>
    cases ns with
    | nil => rfl
    | cons n ns =>
      rw [tail, tail, Tail.cmp, ih, cmpNumeric_eq_compare m.digits n.digits, List.map_cons,
        List.map_cons, List.compare_cons_cons]

theorem plain_pkgver (v : Dotted) : Plain v.pkgver := by
  refine v.first.plain.append ?_
  induction v.more with
  | nil => simp [Plain, dots]
  | cons n ns ih => exact Plain.append (u := 0x2e :: n.text) (by simpa [Plain] using n.plain) ih

theorem split_epoch (e : Numeral) {w : List UInt8} (hw : 0x3a ∉ w) :
    split (e.text ++ 0x3a :: w) = (e.text, (split w).2) := by
  have he : ∀ c ∈ e.text, isDigit c = true := e.digits
  have hidx := idxOf?_append_cons (w := w) e.plain.1
  have hd : (e.text ++ 0x3a :: w).drop (e.text.length + 1) = w := by simp
  simp only [split, hidx, hd, List.idxOf?_eq_none_iff.mpr hw, List.take_left]
  rw [if_pos (by simpa using ⟨List.length_pos_iff.mpr e.ne_nil, he⟩)]
  cases rfind w 0x2d <;> rfl

theorem split_text (v : Dotted) : split v.text =
    (v.epoch.elim [0x30] (·.text), v.pkgver, v.pkgrel.map (·.text)) := by
  have hp := v.plain_pkgver
  have hr : 0x3a ∉ v.pkgver ++ v.pkgrel.elim [] fun r => 0x2d :: r.text := by
    cases v.pkgrel with
    | none => simpa using hp.1
    | some r => simp [hp.1, r.plain.1]
  have hrel : split (v.pkgver ++ v.pkgrel.elim [] fun r => 0x2d :: r.text) =
      ([0x30], v.pkgver, v.pkgrel.map (·.text)) := by
    simp only [split, List.idxOf?_eq_none_iff.mpr hr]
    cases v.pkgrel with
    | none => simp [rfind_of_notMem hp.2]
    | some r => simp [rfind_append_cons r.plain.2]
  rw [text, List.append_assoc]
  cases v.epoch with
  | none => exact hrel
  | some e =>
    rw [Option.elim_some, List.append_assoc, List.singleton_append, split_epoch e hr, hrel]
    rfl

/-- Versions of this form are compared as tuples of numbers, a list that ends being smaller. -/
theorem numeric_versions (a b : Dotted) (h : a.pkgrel.isSome = b.pkgrel.isSome) :
    vercmp a.text b.text = some
      ((compare (a.epoch.elim 0 (value ·.text)) (b.epoch.elim 0 (value ·.text))).then
        ((compare a.numbers b.numbers).then
          (compare (a.pkgrel.map (value ·.text)) (b.pkgrel.map (value ·.text))))) := by
  have he (v : Dotted) : Digits (v.epoch.elim [0x30] (·.text)) ∧
      value (v.epoch.elim [0x30] (·.text)) = v.epoch.elim 0 (value ·.text) := by
    cases v.epoch with
    | none => exact ⟨by simp [Digits, isDigit], rfl⟩
    | some e => exact ⟨e.digits, rfl⟩
  have hn : (tokens a.pkgver).cmp (tokens b.pkgver) = compare a.numbers b.numbers := by
    rw [tokens_pkgver, tokens_pkgver]
    exact cmp_tail (a.first :: a.more) (b.first :: b.more)
  have hrel : cmpRel (a.pkgrel.map fun r => tokens r.text) (b.pkgrel.map fun r => tokens r.text) =
      compare (a.pkgrel.map (value ·.text)) (b.pkgrel.map (value ·.text)) := by
    cases ha : a.pkgrel with
    | none =>
      obtain hb : b.pkgrel = none := by simpa [ha] using h.symm
      rw [hb]
      rfl
    | some r =>
      obtain ⟨q, hb⟩ := Option.isSome_iff_exists.mp (h.symm.trans (by rw [ha]; rfl))
      rw [hb]
      simp only [Option.map_some, cmpRel, tokens_numeric r.ne_nil r.digits,
        tokens_numeric q.ne_nil q.digits, Tail.cmp, cmpNumeric_eq_compare r.digits q.digits]
      simp [compare]
  rw [vercmp_eq, Version.cmp, version, version, split_text, split_text]
  simp only [Option.map_map, cmpNumeric_eq_compare (he a).1 (he b).1, (he _).2, hn]
  exact congrArg _ (congrArg _ (congrArg _ hrel))

/-- `01.10` is above `1.9`. -/
theorem numeric_versions_padded :
    vercmp [0x30, 0x31, 0x2e, 0x31, 0x30] [0x31, 0x2e, 0x39] = some .gt :=
  numeric_versions
    ⟨none, ⟨[0x30, 0x31], by simp, by simp [Digits, isDigit]⟩,
      [⟨[0x31, 0x30], by simp, by simp [Digits, isDigit]⟩], none⟩
    ⟨none, ⟨[0x31], by simp, by simp [Digits, isDigit]⟩,
      [⟨[0x39], by simp, by simp [Digits, isDigit]⟩], none⟩ rfl

end Dotted

end Qunix.Qpkg
