/-
The coverage ratchet.

The baseline is a text with a floor for each crate. The read-only path of `check` refuses
a text with a line it cannot read, folds the floors into a map and compares them with what
was measured, and refuses a floor without a measurement. Percentages are rationals here;
a floor is what `parse` reads, which for an `f64` need not be a number. An error carries
what its message lists.
-/

import Mathlib.Data.Char
import Mathlib.Data.List.Lex
import Mathlib.Data.Option.Basic
import Mathlib.Data.Rat.Defs
import Qunix.Lib.OrderedMap
import Qunix.Lib.Run
import Qunix.Lib.Text

namespace Qunix.Xtask.Coverage

open Qunix.Lib Text

structure Lines where
  hit : Nat
  found : Nat

def Lines.percent (l : Lines) : ℚ := if l.found = 0 then 100 else l.hit * 100 / l.found

/-- `TOLERANCE_PP`. -/
def tolerance : ℚ := 1 / 2

/-- What `parse::<f64>` reads. -/
inductive Floor where
  | number (value : ℚ)
  | infinite (negative : Bool)
  | nan
  deriving DecidableEq

/-- `x < floor`. -/
def Floor.above (x : ℚ) : Floor → Bool
  | .number value => x < value
  | .infinite negative => !negative
  | .nan => false

/-- `x > floor + TOLERANCE_PP`. -/
def Floor.farBelow (x : ℚ) : Floor → Bool
  | .number value => value + tolerance < x
  | .infinite negative => negative
  | .nan => false

/-- `floor <= x`; no comparison with a NaN holds. -/
def Floor.atMost (x : ℚ) : Floor → Bool
  | .number value => value ≤ x
  | .infinite negative => negative
  | .nan => false

theorem Floor.above_eq_false {x : ℚ} {floor : Floor} :
    floor.above x = false ↔ floor.atMost x = true ∨ floor = .nan := by
  cases floor with
  | number value =>
    simp only [above, atMost, decide_eq_false_iff_not, decide_eq_true_eq, Rat.not_lt,
      reduceCtorEq, or_false]
  | infinite | nan => simp [above, atMost]

inductive Error where
  | malformed (lines : List (Nat × Text))
  | unmeasured (floors : List (Text × Floor))
  | dropped (regressions : List (Text × ℚ × Floor))
  deriving DecidableEq

/-- `bail!` where there is something to report. -/
def bailOn {α : Type} (found : List α) (error : List α → Error) : Except Error Unit :=
  if found.isEmpty then .ok () else .error (error found)

/-- A line that is to be read as a floor. -/
def isFloor (line : Text) : Bool := !(trim line).isEmpty && (trim line).head? != some '#'

section

variable (parse : Text → Option Floor)

def isMalformed (line : Text) : Bool :=
  isFloor line &&
    match splitOnce '=' (trim line) with
    | none => true
    | some (name, value) => (trimMatches '"' (trim name)).isEmpty || (parse (trim value)).isNone

def malformedBaselineLines (text : Text) : List (Nat × Text) :=
  ((lines text).zipIdx 1).filterMap fun (line, i) =>
    if isMalformed parse line then some (i, line) else none

def rejectMalformed (text : Text) : Except Error Unit :=
  bailOn (malformedBaselineLines parse text) .malformed

/-- What `parse_baseline` reads in one line. -/
def floorOf (line : Text) : Option (Text × Floor) := do
  guard (isFloor line)
  let (name, value) ← splitOnce '=' (trim line)
  let percent ← parse (trim value)
  pure (trimMatches '"' (trim name), percent)

def collect {ν : Type} (l : List (Text × ν)) : OrderedMap Text ν :=
  l.foldl (fun m e => m.upsert e.1 fun _ => e.2) .empty

def parseBaseline (text : Text) : OrderedMap Text Floor :=
  collect ((lines text).filterMap (floorOf parse))

end

inductive Verdict where
  | regressed
  | improved
  | held

def verdict (now : ℚ) (floor : Floor) : Verdict :=
  if floor.above (now + tolerance) then .regressed
  else if floor.farBelow now then .improved
  else .held

def unmeasuredFloors (baseline : OrderedMap Text Floor) (measured : OrderedMap Text Lines) :
    List (Text × Floor) :=
  baseline.entries.filter fun e => (measured.find e.1).isNone

def gateUnmeasured (baseline : OrderedMap Text Floor) (measured : OrderedMap Text Lines) :
    Except Error Unit :=
  bailOn (unmeasuredFloors baseline measured) .unmeasured

/-- The loop over what was measured; crates without a floor are only reported. -/
def regressions (baseline : OrderedMap Text Floor) (measured : OrderedMap Text Lines) :
    List (Text × ℚ × Floor) :=
  measured.entries.filterMap fun (name, l) => do
    let floor ← baseline.find name
    match verdict l.percent floor with
    | .regressed => some (name, l.percent, floor)
    | _ => none

def check (parse : Text → Option Floor) (text : Text) (measured : OrderedMap Text Lines) :
    Except Error Unit := do
  rejectMalformed parse text
  let baseline := parseBaseline parse text
  gateUnmeasured baseline measured
  bailOn (regressions baseline measured) .dropped

/-! ### Every floor -/

variable {parse : Text → Option Floor} {text : Text} {measured : OrderedMap Text Lines}

/-- The line's crate was measured and holds the line's floor. -/
def Enforced (parse : Text → Option Floor) (measured : OrderedMap Text Lines) (line : Text) :
    Prop :=
  ∃ name floor l, floorOf parse line = some (name, floor) ∧ measured.find name = some l ∧
    floor.atMost (l.percent + tolerance) = true

/-- A later line is for the same crate. -/
def Overridden (parse : Text → Option Floor) (text line : Text) : Prop :=
  ∃ before after later name, lines text = before ++ line :: after ∧ later ∈ after ∧
    (floorOf parse line).map Prod.fst = some name ∧ (floorOf parse later).map Prod.fst = some name

/-- The line's floor is not a number. -/
def ReadsNan (parse : Text → Option Floor) (line : Text) : Prop :=
  (floorOf parse line).map Prod.snd = some .nan

theorem find_collect {ν : Type} {before after : List (Text × ν)} {name : Text} {v : ν}
    (h : ∀ e ∈ after, e.1 ≠ name) :
    (collect (before ++ (name, v) :: after)).find name = some v := by
  induction after using List.reverseRecOn with
  | nil => simp [collect, OrderedMap.find_upsert]
  | append_singleton after e ih =>
    have hne : name ≠ e.1 := fun heq => h e (by simp) heq.symm
    have hold := ih fun e' he => h e' (List.mem_append_left _ he)
    rw [collect] at hold ⊢
    rw [← List.cons_append, ← List.append_assoc, List.foldl_concat, OrderedMap.find_upsert,
      if_neg hne]
    exact hold

theorem eq_nil_of_bailOn {α : Type} {found : List α} {error : List α → Error}
    (h : bailOn found error = .ok ()) : found = [] := by
  unfold bailOn at h
  split_ifs at h with hnil
  exact List.isEmpty_iff.mp hnil

theorem floorOf_of_accepted (h : rejectMalformed parse text = .ok ()) {line : Text}
    (hmem : line ∈ lines text) (hf : isFloor line = true) :
    ∃ name floor, floorOf parse line = some (name, floor) := by
  have hm : isMalformed parse line = false := by
    have hnil := eq_nil_of_bailOn h
    rw [← List.zipIdx_map_fst 1 (lines text)] at hmem
    obtain ⟨e, he, rfl⟩ := List.mem_map.mp hmem
    simpa using List.filterMap_eq_nil_iff.mp hnil e he
  simp only [isMalformed, hf, Bool.true_and] at hm
  split at hm
  · cases hm
  · rename_i name value hs
    obtain ⟨percent, hp⟩ : ∃ percent, parse (trim value) = some percent := by
      simpa [Option.isSome_iff_exists] using (Bool.or_eq_false_iff.mp hm).2
    exact ⟨trimMatches '"' (trim name), percent, by simp [floorOf, hf, hs, hp]⟩

theorem check_spec (h : check parse text measured = .ok ()) :
    rejectMalformed parse text = .ok () ∧
    ∀ name floor, (parseBaseline parse text).find name = some floor →
      ∃ l, measured.find name = some l ∧ floor.above (l.percent + tolerance) = false := by
  unfold check at h
  obtain ⟨_, hacc, h⟩ := bind_eq_ok h
  obtain ⟨_, hgate, h⟩ := bind_eq_ok h
  refine ⟨hacc, fun name floor hfloor => ?_⟩
  cases hl : measured.find name with
  | none =>
    have := List.filter_eq_nil_iff.mp (eq_nil_of_bailOn hgate) _ (OrderedMap.mem_entries.mpr hfloor)
    simp [hl] at this
  | some l =>
    refine ⟨l, rfl, Bool.eq_false_iff.mpr fun habove => ?_⟩
    have := List.filterMap_eq_nil_iff.mp (eq_nil_of_bailOn h) _ (OrderedMap.mem_entries.mpr hl)
    simp [hfloor, verdict, habove] at this

theorem isFloor_of_floorOf {line : Text} {α : Type} {f : Text × Floor → α} {v : α}
    (h : (floorOf parse line).map f = some v) : isFloor line = true := by
  by_contra hf
  simp [floorOf, hf] at h

/-- A line that no later one overrides gives the floor in the map. -/
theorem find_parseBaseline {line name : Text} {floor : Floor} (hmem : line ∈ lines text)
    (hline : floorOf parse line = some (name, floor)) (ho : ¬ Overridden parse text line) :
    (parseBaseline parse text).find name = some floor := by
  obtain ⟨before, after, htext⟩ := List.append_of_mem hmem
  rw [parseBaseline, htext, List.filterMap_append, List.filterMap_cons_some hline]
  refine find_collect fun e he heq => ho ?_
  obtain ⟨later, hlater, hread⟩ := List.mem_filterMap.mp he
  exact ⟨before, after, later, name, htext, hlater, by rw [hline]; rfl, by rw [hread, ← heq]; rfl⟩

/-- Where `check` succeeds, the floors of all lines are held if and only if those are that a
later line for the same crate overrides, and no line's floor is a NaN. -/
theorem floors_enforced_iff (h : check parse text measured = .ok ()) :
    (∀ line ∈ lines text, isFloor line = true → Enforced parse measured line) ↔
      (∀ line, Overridden parse text line → Enforced parse measured line) ∧
        ∀ line ∈ lines text, ¬ ReadsNan parse line := by
  obtain ⟨hacc, hbase⟩ := check_spec h
  constructor
  · intro hall
    constructor
    · rintro line ⟨before, after, later, name, htext, -, hline, -⟩
      exact hall line (by simp [htext]) (isFloor_of_floorOf hline)
    · intro line hmem hnan
      obtain ⟨name, floor, l, hline, -, hle⟩ := hall line hmem (isFloor_of_floorOf hnan)
      simp only [ReadsNan, hline, Option.map_some, Option.some.injEq] at hnan
      subst hnan
      cases hle
  · rintro ⟨hover, hnan⟩ line hmem hf
    obtain ⟨name, floor, hline⟩ := floorOf_of_accepted hacc hmem hf
    by_cases ho : Overridden parse text line
    · exact hover line ho
    · obtain ⟨l, hl, habove⟩ := hbase name floor (find_parseBaseline hmem hline ho)
      refine ⟨name, floor, l, hline, hl, (Floor.above_eq_false.mp habove).resolve_right ?_⟩
      rintro rfl
      exact hnan line hmem (by rw [ReadsNan, hline]; rfl)

/-- Reads digits, and `nan`. -/
def decimal (s : Text) : Option Floor :=
  if s = "nan".toList then some .nan
  else some (.number (s.foldl (fun n c => 10 * n + (c.toNat - '0'.toNat : Nat)) 0))

/-- One crate, with 45 of its 100 lines hit. -/
def fortyFive : OrderedMap Text Lines := ⟨[("a".toList, ⟨45, 100⟩)], by simp⟩

/-- The same floor twice. -/
theorem floors_enforced_iff_repeated :
    check decimal "a = 40\na = 40\n".toList fortyFive = .ok () ∧
      ((∀ line ∈ lines "a = 40\na = 40\n".toList, isFloor line = true →
        Enforced decimal fortyFive line) ↔
      (∀ line, Overridden decimal "a = 40\na = 40\n".toList line →
        Enforced decimal fortyFive line) ∧
        ∀ line ∈ lines "a = 40\na = 40\n".toList, ¬ ReadsNan decimal line) := by
  have h : check decimal "a = 40\na = 40\n".toList fortyFive = .ok () := by decide +kernel
  exact ⟨h, floors_enforced_iff h⟩

theorem not_enforced {name : Text} {floor : Floor} {l : Lines} {line : Text}
    (hf : floorOf parse line = some (name, floor)) (hl : measured.find name = some l)
    (hle : floor.atMost (l.percent + tolerance) = false) : ¬ Enforced parse measured line := by
  rintro ⟨name', floor', l', hf', hl', hle'⟩
  cases hf.symm.trans hf'
  cases hl.symm.trans hl'
  cases hle.symm.trans hle'

/-- The floor of 90 is overridden by one of 10, and nothing says so; nor that `nan` is no
floor. -/
theorem overridden_floor_unenforced :
    (check decimal "a = 90\na = 10\n".toList fortyFive = .ok () ∧
      "a = 90".toList ∈ lines "a = 90\na = 10\n".toList ∧ isFloor "a = 90".toList = true ∧
      ¬ Enforced decimal fortyFive "a = 90".toList) ∧
    check decimal "a = nan".toList fortyFive = .ok () ∧
      "a = nan".toList ∈ lines "a = nan".toList ∧ isFloor "a = nan".toList = true ∧
      ¬ Enforced decimal fortyFive "a = nan".toList := by
  refine ⟨⟨by decide +kernel, by decide +kernel, by decide +kernel, ?_⟩, by decide +kernel,
    by decide +kernel, by decide +kernel, ?_⟩
  · have hf : floorOf decimal "a = 90".toList = some ("a".toList, .number 90) := by
      decide +kernel
    exact not_enforced hf rfl (by decide +kernel)
  · have hf : floorOf decimal "a = nan".toList = some ("a".toList, .nan) := by decide +kernel
    exact not_enforced hf rfl rfl

end Qunix.Xtask.Coverage
