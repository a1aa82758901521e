/-
How far version comparison is an order.

Letters are compared with letters whether or not a separator stands before them, but
against the end of the other version attached letters lose and separated letters win.
So three versions that agree up to a place where one goes on with attached letters, one
ends, and one goes on with separated letters (`Tail.Fork`) are in a cycle unless the
first happens to sort before the third. There is no other way for the comparison to
fail to be a total preorder.
-/

import Qunix.Lib.Cycles
import Qunix.Qpkg.Vercmp

namespace Qunix.Qpkg

open Qunix.Lib

/-! ### Runs -/

/-- Shorter first, then lexically. -/
def byLength : List UInt8 → List UInt8 → Ordering := compareLex (compareOn List.length) compare

instance : Std.TransCmp byLength := inferInstanceAs (Std.TransCmp (compareLex _ _))

instance : Std.TransCmp cmpNumeric where
  eq_swap {a b} := by
    have h : byLength (trimZeros a) (trimZeros b) = (byLength (trimZeros b) (trimZeros a)).swap :=
      Std.OrientedCmp.eq_swap
    exact h
  isLE_trans {a b c} hab hbc := by
    have h : (byLength (trimZeros a) (trimZeros c)).isLE = true := Std.TransCmp.isLE_trans hab hbc
    exact h

theorem compare_run_self (u : List UInt8) : compare u u = .eq := Std.ReflCmp.compare_self

theorem cmpNumeric_self (m : List UInt8) : cmpNumeric m m = .eq := Std.ReflCmp.compare_self

theorem cmpNumeric_eq_iff {a b : List UInt8} :
    cmpNumeric a b = .eq ↔ trimZeros a = trimZeros b := by
  rw [cmpNumeric, Ordering.then_eq_eq, Std.LawfulEqOrd.compare_eq_iff_eq,
    Std.LawfulEqOrd.compare_eq_iff_eq]
  constructor
  · exact fun h => h.2
  · exact fun h => ⟨congrArg List.length h, h⟩

namespace Tail

/-! ### Tails -/

theorem cmp_swap (s t : Tail) : t.cmp s = (s.cmp t).swap := by
  induction s generalizing t with
  | done => cases t with
    | letters separated _ _ => cases separated <;> rfl
    | _ => rfl
  | separators => cases t <;> rfl
  | letters separated u s ih =>
    cases t with
    | letters _ v t =>
      rw [cmp, cmp, Ordering.swap_then, ← ih t, ← Std.OrientedCmp.eq_swap]
    | done => cases separated <;> rfl
    | _ => rfl
  | digits _ m s ih =>
    cases t with
    | digits _ n t =>
      rw [cmp, cmp, Ordering.swap_then, ← ih t, ← Std.OrientedCmp.eq_swap]
    | _ => rfl

theorem cmp_self (s : Tail) : s.cmp s = .eq := by
  induction s with
  | done | separators => rfl
  | letters _ u s ih =>
    rw [cmp, ih, compare_run_self]
    rfl
  | digits _ m s ih =>
    rw [cmp, ih, cmpNumeric_self]
    rfl

/-- The first sorts before the second. -/
inductive Below : Tail → Tail → Prop where
  | attached_done {u : List UInt8} {s : Tail} : Below (.letters false u s) .done
  | done_separated {u : List UInt8} {s : Tail} : Below .done (.letters true u s)
  | done_separators : Below .done .separators
  | letters_separators {a : Bool} {u : List UInt8} {s : Tail} : Below (.letters a u s) .separators
  | done_digits {b : Bool} {n : List UInt8} {t : Tail} : Below .done (.digits b n t)
  | separators_digits {b : Bool} {n : List UInt8} {t : Tail} : Below .separators (.digits b n t)
  | letters_digits {a b : Bool} {u n : List UInt8} {s t : Tail} :
      Below (.letters a u s) (.digits b n t)
  | letters_lt {a b : Bool} {u v : List UInt8} {s t : Tail} (h : compare u v = .lt) :
      Below (.letters a u s) (.letters b v t)
  | letters_same {a b : Bool} {u : List UInt8} {s t : Tail} (h : Below s t) :
      Below (.letters a u s) (.letters b u t)
  | digits_lt {a b : Bool} {m n : List UInt8} {s t : Tail} (h : cmpNumeric m n = .lt) :
      Below (.digits a m s) (.digits b n t)
  | digits_same {a b : Bool} {m n : List UInt8} {s t : Tail} (hmn : cmpNumeric m n = .eq)
      (h : Below s t) : Below (.digits a m s) (.digits b n t)

variable {s t p q r : Tail} {a b c : Bool}

theorem Below.cmp_eq (h : Below s t) : s.cmp t = .lt := by
  induction h with
  | letters_lt h | digits_lt h =>
    rw [cmp, h]
    rfl
  | letters_same _ ih =>
    rw [cmp, ih, compare_run_self]
    rfl
  | digits_same hmn _ ih =>
    rw [cmp, ih, hmn]
    rfl
  | _ => rfl

theorem below_of_cmp (h : s.cmp t = .lt) : Below s t := by
  induction s generalizing t with
  | done =>
    cases t with
    | done => cases h
    | separators => exact .done_separators
    | letters separated =>
      cases separated with
      | false => cases h
      | true => exact .done_separated
    | digits => exact .done_digits
  | separators =>
    cases t with
    | digits => exact .separators_digits
    | _ => cases h
  | letters separated u s ih =>
    cases t with
    | done =>
      cases separated with
      | false => exact .attached_done
      | true => cases h
    | separators => exact .letters_separators
    | digits => exact .letters_digits
    | letters _ v t =>
      rcases Ordering.then_eq_lt.mp h with hlt | ⟨heq, hlt⟩
      · exact .letters_lt hlt
      · obtain rfl := Std.LawfulEqOrd.compare_eq_iff_eq.mp heq
        exact .letters_same (ih hlt)
  | digits _ m s ih =>
    cases t with
    | digits _ n t =>
      rcases Ordering.then_eq_lt.mp h with hlt | ⟨heq, hlt⟩
      · exact .digits_lt hlt
      · exact .digits_same heq (ih hlt)
    | _ => cases h

theorem cmp_eq_lt_iff : s.cmp t = .lt ↔ Below s t := ⟨below_of_cmp, Below.cmp_eq⟩

/-- Up to a place the three have the same runs; there the first goes on with attached
letters, the second ends, and the third goes on with letters after a separator. -/
def Fork : Tail → Tail → Tail → Prop
  | .letters _ u p, .letters _ v q, .letters _ w r => u = v ∧ v = w ∧ Fork p q r
  | .digits _ k p, .digits _ m q, .digits _ n r =>
    trimZeros k = trimZeros m ∧ trimZeros m = trimZeros n ∧ Fork p q r
  | .letters false _ _, .done, .letters true _ _ => True
  | _, _, _ => False

/-- A fork whose ends are out of order. -/
def Snag (p q r : Tail) : Prop := Fork p q r ∧ ¬ Below p r

theorem snag_iff : Snag p q r ↔ Fork p q r ∧ r.cmp p ≠ .gt := by
  rw [Snag, ← cmp_eq_lt_iff, cmp_swap p r]
  cases p.cmp r <;> simp

theorem snag_letters {u v w : List UInt8} :
    Snag (.letters a u p) (.letters b v q) (.letters c w r) ↔ u = v ∧ v = w ∧ Snag p q r := by
  simp only [snag_iff, Fork, cmp]
  constructor
  · rintro ⟨⟨rfl, rfl, hf⟩, hcmp⟩
    rw [compare_run_self] at hcmp
    exact ⟨rfl, rfl, hf, hcmp⟩
  · rintro ⟨rfl, rfl, hf, hcmp⟩
    rw [compare_run_self]
    exact ⟨⟨rfl, rfl, hf⟩, hcmp⟩

theorem snag_digits {k m n : List UInt8} :
    Snag (.digits a k p) (.digits b m q) (.digits c n r) ↔
      cmpNumeric k m = .eq ∧ cmpNumeric m n = .eq ∧ Snag p q r := by
  simp only [snag_iff, Fork, cmp, cmpNumeric_eq_iff]
  constructor
  · rintro ⟨⟨hkm, hmn, hf⟩, hcmp⟩
    rw [cmpNumeric_eq_iff.mpr (hkm.trans hmn).symm] at hcmp
    exact ⟨hkm, hmn, hf, hcmp⟩
  · rintro ⟨hkm, hmn, hf, hcmp⟩
    rw [cmpNumeric_eq_iff.mpr (hkm.trans hmn).symm]
    exact ⟨⟨hkm, hmn, hf⟩, hcmp⟩

theorem circular_iff (a b c : Tail) : Circular (a.cmp b) (b.cmp c) (c.cmp a) ↔
    Snag a b c ∨ Snag b c a ∨ Snag c a b := by
  induction a generalizing b c with
  | letters a' u p ih =>
    cases b with
    | letters b' v q =>
      cases c with
      | letters c' w r =>
        simp only [cmp, circular_then_of_not (not_circular u v w), snag_letters, ih,
          Std.LawfulEqOrd.compare_eq_iff_eq]
        constructor
        · rintro ⟨rfl, rfl, -, hs⟩
          simpa using hs
        · rintro (⟨rfl, rfl, hs⟩ | ⟨rfl, rfl, hs⟩ | ⟨rfl, rfl, hs⟩) <;> simp [hs]
      | _ => cases a' <;> cases b' <;> simp [Circular, snag_iff, Fork, cmp]
    | _ =>
      rcases c with _ | _ | ⟨_ | _, _, _⟩ | _ <;> cases a' <;> simp [Circular, snag_iff, Fork, cmp]
  | digits a' k p ih =>
    cases b with
    | digits b' m q =>
      cases c with
      | digits c' n r =>
        simp only [cmp, circular_then_of_not (not_circular k m n), snag_digits, ih]
        constructor
        · rintro ⟨hkm, hmn, hnk, hs⟩
          simpa [hkm, hmn, hnk] using hs
        · rintro (⟨h, h', hs⟩ | ⟨h, h', hs⟩ | ⟨h, h', hs⟩)
          all_goals simp_all [cmpNumeric_eq_iff]
      | _ => simp [Circular, snag_iff, Fork, cmp]
    | letters b' v q => cases c <;> cases b' <;> simp [Circular, snag_iff, Fork, cmp]
    | _ =>
      rcases c with _ | _ | ⟨_ | _, _, _⟩ | _ <;> simp [Circular, snag_iff, Fork, cmp]
  | done | separators =>
    rcases b with _ | _ | ⟨_ | _, _, _⟩ | _ <;> rcases c with _ | _ | ⟨_ | _, _, _⟩ | _ <;>
      simp [Circular, snag_iff, Fork, cmp]

/-- The same runs and the same end. -/
def Same : Tail → Tail → Prop
  | .letters _ u s, .letters _ v t => u = v ∧ Same s t
  | .digits _ m s, .digits _ n t => trimZeros m = trimZeros n ∧ Same s t
  | .done, .done => True
  | .separators, .separators => True
  | _, _ => False

theorem cmp_eq_eq_iff (s t : Tail) : s.cmp t = .eq ↔ Same s t := by
  induction s generalizing t with
  | done =>
    cases t with
    | letters separated => cases separated <;> simp [cmp, Same]
    | _ => simp [cmp, Same]
  | separators => cases t <;> simp [cmp, Same]
  | letters separated u s ih =>
    cases t with
    | letters _ v t =>
      rw [cmp, Same, Ordering.then_eq_eq, Std.LawfulEqOrd.compare_eq_iff_eq, ih]
    | done => cases separated <;> simp [cmp, Same]
    | _ => simp [cmp, Same]
  | digits _ m s ih =>
    cases t with
    | digits _ n t => rw [cmp, Same, Ordering.then_eq_eq, cmpNumeric_eq_iff, ih]
    | _ => simp [cmp, Same]

theorem Same.symm (h : Same s t) : Same t s := by
  rw [← cmp_eq_eq_iff] at h ⊢
  rw [cmp_swap, h]
  rfl

theorem Same.trans {w : Tail} (hst : Same s t) (htw : Same t w) : Same s w := by
  induction s generalizing t w with
  | letters _ u s ih =>
    cases t with
    | letters _ v t =>
      cases w with
      | letters _ x w => exact ⟨hst.1.trans htw.1, ih hst.2 htw.2⟩
      | _ => cases htw
    | _ => cases hst
  | digits _ m s ih =>
    cases t with
    | digits _ n t =>
      cases w with
      | digits _ k w => exact ⟨hst.1.trans htw.1, ih hst.2 htw.2⟩
      | _ => cases htw
    | _ => cases hst
  | done =>
    cases t with
    | done => exact htw
    | _ => cases hst
  | separators =>
    cases t with
    | separators => exact htw
    | _ => cases hst

theorem Fork.cmp_eq (h : Fork p q r) : p.cmp q = .lt ∧ q.cmp r = .lt := by
  induction p generalizing q r with
  | letters a u p ih =>
    cases q with
    | letters _ v q =>
      cases r with
      | letters _ w r =>
        obtain ⟨rfl, rfl, hf⟩ := h
        obtain ⟨hpq, hqr⟩ := ih hf
        simp [cmp, hpq, hqr]
      | _ => simp [Fork] at h
    | done =>
      cases r with
      | letters c => cases a <;> cases c <;> simp_all [Fork, cmp]
      | _ => simp [Fork] at h
    | _ => simp [Fork] at h
  | digits _ k p ih =>
    cases q with
    | digits _ m q =>
      cases r with
      | digits _ n r =>
        obtain ⟨hkm, hmn, hf⟩ := h
        obtain ⟨hpq, hqr⟩ := ih hf
        simp [cmp, cmpNumeric_eq_iff.mpr hkm, cmpNumeric_eq_iff.mpr hmn, hpq, hqr]
      | _ => simp [Fork] at h
    | _ => simp [Fork] at h
  | _ => simp [Fork] at h

end Tail

/-! ### Versions -/

structure Version where
  epoch : List UInt8
  pkgver : Tail
  pkgrel : Option Tail

def version (v : List UInt8) : Version :=
  ⟨(split v).1, tokens (split v).2.1, (split v).2.2.map tokens⟩

def cmpRel : Option Tail → Option Tail → Ordering
  | some x, some y => x.cmp y
  | _, _ => .eq

namespace Version

open Tail

def cmp (a b : Version) : Ordering :=
  (cmpNumeric a.epoch b.epoch).then ((a.pkgver.cmp b.pkgver).then (cmpRel a.pkgrel b.pkgrel))

/-- The first sorts before the second, epochs apart. -/
def Below (a b : Version) : Prop :=
  Tail.Below a.pkgver b.pkgver ∨
    Same a.pkgver b.pkgver ∧ ∃ x y, a.pkgrel = some x ∧ b.pkgrel = some y ∧ Tail.Below x y

/-- A fork in the pkgver, or in the pkgrel of one pkgver, whose ends are out of order. -/
structure Snag (p q r : Version) : Prop where
  epochs : trimZeros p.epoch = trimZeros q.epoch ∧ trimZeros q.epoch = trimZeros r.epoch
  fork : (Fork p.pkgver q.pkgver r.pkgver ∧ ¬ p.Below r) ∨
    (Same p.pkgver q.pkgver ∧ Same q.pkgver r.pkgver ∧
      ∃ x y z, p.pkgrel = some x ∧ q.pkgrel = some y ∧ r.pkgrel = some z ∧
        Fork x y z ∧ ¬ Tail.Below x z)

theorem cmpRel_swap (x y : Option Tail) : cmpRel y x = (cmpRel x y).swap := by
  cases x with
  | none => cases y <;> rfl
  | some x =>
    cases y with
    | none => rfl
    | some y => exact Tail.cmp_swap x y

theorem cmp_swap (a b : Version) : b.cmp a = (a.cmp b).swap := by
  rw [cmp, cmp, Ordering.swap_then, Ordering.swap_then, ← cmpRel_swap, ← Tail.cmp_swap,
    ← Std.OrientedCmp.eq_swap]

theorem cmp_self (a : Version) : a.cmp a = .eq := by
  have hrel : cmpRel a.pkgrel a.pkgrel = .eq := by
    cases a.pkgrel with
    | none => rfl
    | some x => exact Tail.cmp_self x
  rw [cmp, cmpNumeric_self, Tail.cmp_self, hrel]
  rfl

/-- The ends of a fork in the pkgver are out of order, the pkgrel deciding between equals. -/
theorem not_below_iff (p r : Version) : ¬ p.Below r ↔
    (r.pkgver.cmp p.pkgver).then (cmpRel r.pkgrel p.pkgrel) ≠ .gt := by
  have hrel : (∃ x y, p.pkgrel = some x ∧ r.pkgrel = some y ∧ Tail.Below x y) ↔
      cmpRel p.pkgrel r.pkgrel = .lt := by
    cases p.pkgrel <;> cases r.pkgrel <;> simp [cmpRel, cmp_eq_lt_iff]
  have hlt : p.Below r ↔ (p.pkgver.cmp r.pkgver).then (cmpRel p.pkgrel r.pkgrel) = .lt := by
    rw [Below, hrel, Ordering.then_eq_lt, cmp_eq_lt_iff, cmp_eq_eq_iff]
  rw [hlt, Tail.cmp_swap p.pkgver, cmpRel_swap p.pkgrel, ← Ordering.swap_then]
  generalize (p.pkgver.cmp r.pkgver).then (cmpRel p.pkgrel r.pkgrel) = o
  revert o
  decide

/-- Which forks in the pkgver make a cycle, whatever refines the comparison. -/
theorem fork_iff {p q r : Tail} {k₁ k₂ k₃ : Ordering} :
    (Tail.Snag p q r ∧ (p.cmp q = .eq → k₁ ≠ .gt) ∧ (q.cmp r = .eq → k₂ ≠ .gt) ∧
      (r.cmp p = .eq → k₃ ≠ .gt)) ↔ Fork p q r ∧ (r.cmp p).then k₃ ≠ .gt := by
  rw [snag_iff]
  constructor
  · rintro ⟨⟨hf, hcmp⟩, -, -, hk⟩
    cases h : r.cmp p <;> simp_all
  · rintro ⟨hf, hcmp⟩
    obtain ⟨hpq, hqr⟩ := hf.cmp_eq
    refine ⟨⟨hf, ?_⟩, by simp [hpq], by simp [hqr], ?_⟩
    · intro hgt
      simp [hgt] at hcmp
    · intro heq
      simpa [heq] using hcmp

theorem circular_rel_iff {x y z : Option Tail} (hxy : x.isSome = y.isSome)
    (hyz : y.isSome = z.isSome) :
    Circular (cmpRel x y) (cmpRel y z) (cmpRel z x) ↔
      ∃ x' y' z', x = some x' ∧ y = some y' ∧ z = some z' ∧
        (Tail.Snag x' y' z' ∨ Tail.Snag y' z' x' ∨ Tail.Snag z' x' y') := by
  cases x with
  | none =>
    obtain rfl : y = none := by simpa using hxy.symm
    simp [cmpRel, Circular]
  | some x' =>
    obtain ⟨y', rfl⟩ := Option.isSome_iff_exists.mp hxy.symm
    obtain ⟨z', rfl⟩ := Option.isSome_iff_exists.mp hyz.symm
    simp [cmpRel, Tail.circular_iff]

theorem snag_iff (p q r : Version) : Snag p q r ↔
    (trimZeros p.epoch = trimZeros q.epoch ∧ trimZeros q.epoch = trimZeros r.epoch) ∧
    ((Tail.Snag p.pkgver q.pkgver r.pkgver ∧
        (p.pkgver.cmp q.pkgver = .eq → cmpRel p.pkgrel q.pkgrel ≠ .gt) ∧
        (q.pkgver.cmp r.pkgver = .eq → cmpRel q.pkgrel r.pkgrel ≠ .gt) ∧
        (r.pkgver.cmp p.pkgver = .eq → cmpRel r.pkgrel p.pkgrel ≠ .gt)) ∨
      (Same p.pkgver q.pkgver ∧ Same q.pkgver r.pkgver ∧
        ∃ x y z, p.pkgrel = some x ∧ q.pkgrel = some y ∧ r.pkgrel = some z ∧ Tail.Snag x y z)) := by
  rw [fork_iff, ← not_below_iff]
  exact ⟨fun h => ⟨h.epochs, h.fork⟩, fun h => ⟨h.1, h.2⟩⟩

section

variable {a b c : Version} (hab : a.pkgrel.isSome = b.pkgrel.isSome)
  (hbc : b.pkgrel.isSome = c.pkgrel.isSome)

include hab hbc

theorem Snag.circular (h : Snag a b c) : Circular (a.cmp b) (b.cmp c) (c.cmp a) := by
  obtain ⟨⟨e, e'⟩, h⟩ := (snag_iff a b c).mp h
  simp only [cmp, circular_then_of_not (not_circular a.epoch b.epoch c.epoch), cmpNumeric_eq_iff]
  rw [circular_then_iff, Tail.circular_iff, circular_rel_iff hab hbc]
  simp only [cmp_eq_eq_iff] at h ⊢
  refine ⟨e, e', (e.trans e').symm, ?_⟩
  rcases h with ⟨h, hk⟩ | ⟨sab, sbc, x, y, z, hx, hy, hz, h⟩
  · exact .inr ⟨.inl h, hk⟩
  · exact .inl ⟨sab, sbc, (sab.trans sbc).symm, x, y, z, hx, hy, hz, .inl h⟩

theorem circular_iff :
    Circular (a.cmp b) (b.cmp c) (c.cmp a) ↔ Snag a b c ∨ Snag b c a ∨ Snag c a b := by
  have hca := (hab.trans hbc).symm
  constructor
  · simp only [cmp, circular_then_of_not (not_circular a.epoch b.epoch c.epoch), cmpNumeric_eq_iff]
    rw [circular_then_iff, Tail.circular_iff, circular_rel_iff hab hbc]
    simp only [snag_iff, cmp_eq_eq_iff]
    rintro ⟨eab, ebc, eca, ⟨sab, sbc, sca, x, y, z, hx, hy, hz, hs⟩ | ⟨hs, kab, kbc, kca⟩⟩
    · rcases hs with h | h | h
      · exact .inl ⟨⟨eab, ebc⟩, .inr ⟨sab, sbc, x, y, z, hx, hy, hz, h⟩⟩
      · exact .inr (.inl ⟨⟨ebc, eca⟩, .inr ⟨sbc, sca, y, z, x, hy, hz, hx, h⟩⟩)
      · exact .inr (.inr ⟨⟨eca, eab⟩, .inr ⟨sca, sab, z, x, y, hz, hx, hy, h⟩⟩)
    · rcases hs with h | h | h
      · exact .inl ⟨⟨eab, ebc⟩, .inl ⟨h, kab, kbc, kca⟩⟩
      · exact .inr (.inl ⟨⟨ebc, eca⟩, .inl ⟨h, kbc, kca, kab⟩⟩)
      · exact .inr (.inr ⟨⟨eca, eab⟩, .inl ⟨h, kca, kab, kbc⟩⟩)
  · rintro (h | h | h)
    · exact h.circular hab hbc
    · exact (h.circular hbc hca).rotate.rotate
    · exact (h.circular hca hab).rotate

end

end Version

/-! ### The laws -/

theorem thenWith_some (o k : Ordering) : thenWith o (some k) = some (o.then k) := by
  cases o <;> rfl

/-- `vercmp` returns, and what it returns is decided by the tokens. -/
theorem vercmp_eq (a b : List UInt8) : vercmp a b = some ((version a).cmp (version b)) := by
  unfold vercmp version
  rcases split a with ⟨ae, av, ar⟩
  rcases split b with ⟨be, bv, br⟩
  cases ar <;> cases br <;>
    simp [cmpSegments_eq, thenWith_some, cmpRel, Version.cmp]

/-- The laws of a total preorder, on three versions. -/
structure Preordered (a b c : List UInt8) : Prop where
  refl : vercmp a a = some .eq
  swap : vercmp b a = (vercmp a b).map Ordering.swap
  trans : ∃ ab bc ac, vercmp a b = some ab ∧ vercmp b c = some bc ∧ vercmp a c = some ac ∧
    Transits ab bc ac

/-- A pkgrel on each, or on none. -/
def AlikeReleased (a b c : List UInt8) : Prop :=
  (split a).2.2.isSome = (split b).2.2.isSome ∧ (split b).2.2.isSome = (split c).2.2.isSome

instance (a b c : List UInt8) : Decidable (AlikeReleased a b c) :=
  inferInstanceAs (Decidable (_ ∧ _))

/-- Three versions are compared as in a total preorder iff they are not a fork, in any
order round, whose ends are out of order. -/
theorem vercmp_preorder_iff (a b c : List UInt8) (hrel : AlikeReleased a b c) :
    Preordered a b c ↔
      ¬ (Version.Snag (version a) (version b) (version c) ∨
        Version.Snag (version b) (version c) (version a) ∨
        Version.Snag (version c) (version a) (version b)) := by
  have hab : (version a).pkgrel.isSome = (version b).pkgrel.isSome := by
    simpa [version] using hrel.1
  have hbc : (version b).pkgrel.isSome = (version c).pkgrel.isSome := by
    simpa [version] using hrel.2
  rw [← Version.circular_iff hab hbc, Version.cmp_swap (version a) (version c), ← transits_iff]
  constructor
  · rintro ⟨-, -, ab, bc, ac, hab, hbc, hac, htransits⟩
    rw [vercmp_eq, Option.some.injEq] at hab hbc hac
    rwa [hab, hbc, hac]
  · intro htransits
    constructor
    case refl => rw [vercmp_eq, Version.cmp_self]
    case swap =>
      rw [vercmp_eq, vercmp_eq, Version.cmp_swap (version a)]
      rfl
    case trans => exact ⟨_, _, _, vercmp_eq a b, vercmp_eq b c, vercmp_eq a c, htransits⟩

/-- `1.0a`, `1.0` and `1.0.b`. -/
theorem vercmp_preorder_iff_chain :
    Preordered [0x31, 0x2e, 0x30, 0x61] [0x31, 0x2e, 0x30] [0x31, 0x2e, 0x30, 0x2e, 0x62] ∧
    ¬ Version.Snag (version [0x31, 0x2e, 0x30, 0x61]) (version [0x31, 0x2e, 0x30])
      (version [0x31, 0x2e, 0x30, 0x2e, 0x62]) := by
  have h : Preordered [0x31, 0x2e, 0x30, 0x61] [0x31, 0x2e, 0x30]
      [0x31, 0x2e, 0x30, 0x2e, 0x62] := by
    constructor
    case refl => decide +kernel
    case swap => decide +kernel
    case trans => exact ⟨.lt, .lt, .lt, by decide +kernel⟩
  exact ⟨h, fun hsnag => (vercmp_preorder_iff _ _ _ (by decide)).mp h (.inl hsnag)⟩

/-- `1.0a` is below `1.0`, which is below `1.0.a`, but `1.0a` and `1.0.a` are equal. -/
theorem vercmp_cycle :
    vercmp [0x31, 0x2e, 0x30, 0x61] [0x31, 0x2e, 0x30] = some .lt ∧
    vercmp [0x31, 0x2e, 0x30] [0x31, 0x2e, 0x30, 0x2e, 0x61] = some .lt ∧
    vercmp [0x31, 0x2e, 0x30, 0x61] [0x31, 0x2e, 0x30, 0x2e, 0x61] = some .eq := by
  decide +kernel

end Qunix.Qpkg
