/-
The frame allocator at boot (`init` in `kernel/src/frames.rs`).

Each usable entry of the firmware's map is cut at the conventional-memory window and
at 1 MiB. What lies in the window and above 1 MiB is offered to the allocator
(`offers`), the rest is counted as excluded, and both together are the entry's length
(`sum_offers`). An entry whose end is not a word is passed over, and its length is
counted nowhere; so the totals of a boot are those of the map exactly when there
is no such entry.
-/

import Qunix.Mm.Accounting

namespace Qunix.Mm

open Qunix.Lib

def lowUsableStart : Nat := 0x1000
def lowUsableEnd : Nat := 0x9F000
def oneMib : Nat := 0x100000

/-- The lowest address the EBDA occupies, of the 16-bit segment in the BDA. -/
def ebdaFloor (segment : Nat) : Nat :=
  if segment = 0 then lowUsableEnd else min lowUsableEnd (segment <<< 4)

theorem ebdaFloor_le (segment : Nat) : ebdaFloor segment ≤ lowUsableEnd := by
  unfold ebdaFloor
  split
  · exact le_rfl
  · exact Nat.min_le_left _ _

/-- Why `init` stops the machine. -/
inductive InitPanic where
  /-- The assertion of `set_backing`. -/
  | backingChanged
  | arithmetic (why : Panic)
deriving DecidableEq, Repr

structure Frames where
  allocator : Buddy
  excludedLowBytes : Nat
  initialised : Bool

namespace Frames

/-- Before `init`. -/
def boot (mem : Nat → Nat) : Frames where
  allocator := .new mem
  excludedLowBytes := 0
  initialised := false

/-- The part of `start .. limit` below 1 MiB. -/
def inLowMib (start limit : Nat) : Nat := min limit oneMib - min start oneMib

/-- The part of `start .. limit` in the window. -/
def inWindow (lowEnd start limit : Nat) : Nat := min limit lowEnd - max start lowUsableStart

/-- A part of an entry that is taken, unless it is empty. -/
def offer (b : Buddy) (start stop : Nat) : Except Panic Buddy :=
  if start < stop then b.addRegion start (stop - start) else .ok b

/-- The loop over the usable entries of the map. -/
def takeEntries (lowEnd : Nat) : List (Nat × Nat) → Buddy × Nat → Except Panic (Buddy × Nat)
  | [], (b, excluded) => .ok (b, excluded)
  | (start, len) :: entries, (b, excluded) =>
    match checkedAdd start len with
    | none => takeEntries lowEnd entries (b, excluded)
    | some limit => do
      let b ← offer b (max start lowUsableStart) (min limit lowEnd)
      let rest ← subU64 (inLowMib start limit) (inWindow lowEnd start limit)
      let excluded ← addU64 excluded rest
      let b ← offer b (max start oneMib) limit
      takeEntries lowEnd entries (b, excluded)

/-- `mem` is the memory behind the direct map. -/
def init (f : Frames) (mem : Nat → Nat) (segment : Nat) (usable : List (Nat × Nat)) :
    Except InitPanic Frames :=
  if f.initialised then .ok f
  else if f.allocator.regions ≠ [] then .error .backingChanged
  else
    match takeEntries (ebdaFloor segment) usable ({ f.allocator with mem := mem }, 0) with
    | .error why => .error (.arithmetic why)
    | .ok (b, excluded) =>
      .ok { allocator := b, excludedLowBytes := excluded, initialised := true }

/-- The totals of `stats` together. -/
def total (f : Frames) : Nat := f.allocator.accounted + f.excludedLowBytes

/-! ### What is offered -/

/-- The range that `offer` passes on. -/
def offered (start stop : Nat) : List (Nat × Nat) :=
  if start < stop then [(start, stop - start)] else []

/-- The ranges of an entry that are offered to the allocator. -/
def offers (lowEnd : Nat) (e : Nat × Nat) : List (Nat × Nat) :=
  match checkedAdd e.1 e.2 with
  | none => []
  | some limit =>
    offered (max e.1 lowUsableStart) (min limit lowEnd) ++ offered (max e.1 oneMib) limit

/-- The bytes of an entry that are excluded. -/
def excludes (lowEnd : Nat) (e : Nat × Nat) : Nat :=
  match checkedAdd e.1 e.2 with
  | none => 0
  | some limit => inLowMib e.1 limit - inWindow lowEnd e.1 limit

theorem offer_eq (b : Buddy) (start stop : Nat) :
    offer b start stop = b.addRegions (offered start stop) := by
  unfold offer offered
  split
  · simp [Buddy.addRegions]
  · rfl

theorem sum_offered (start stop : Nat) :
    ((offered start stop).map Prod.snd).sum = stop - start := by
  unfold offered
  split
  · simp
  · simp only [List.map_nil, List.sum_nil]
    omega

variable {lowEnd : Nat}

section

variable (hlow : lowEnd ≤ lowUsableEnd)

include hlow

/-- The window lies below 1 MiB: the subtraction does not underflow. -/
theorem inWindow_le_inLowMib (start limit : Nat) :
    inWindow lowEnd start limit ≤ inLowMib start limit := by
  simp only [inWindow, inLowMib, lowUsableEnd, oneMib] at *
  omega

theorem sum_offers (e : Nat × Nat) :
    ((offers lowEnd e).map Prod.snd).sum + excludes lowEnd e =
      if e.1 + e.2 < 2 ^ 64 then e.2 else 0 := by
  by_cases hw : e.1 + e.2 < 2 ^ 64
  · have hl : checkedAdd e.1 e.2 = some (e.1 + e.2) := if_pos hw
    have hle := inWindow_le_inLowMib hlow e.1 (e.1 + e.2)
    simp only [offers, excludes, hl, if_pos hw, List.map_append, List.sum_append,
      sum_offered]
    simp only [inLowMib, inWindow] at hle ⊢
    omega
  · have hl : checkedAdd e.1 e.2 = none := if_neg hw
    rw [if_neg hw]
    simp [offers, excludes, hl]

theorem takeEntries_eq {entries : List (Nat × Nat)} {b : Buddy}
    {excluded : Nat} (hr : excluded + (entries.map (excludes lowEnd)).sum < 2 ^ 64) :
    takeEntries lowEnd entries (b, excluded) =
      (b.addRegions (entries.flatMap (offers lowEnd))).map
        fun b' => (b', excluded + (entries.map (excludes lowEnd)).sum) := by
  induction entries generalizing b excluded with
  | nil => rfl
  | cons e entries ih =>
    obtain ⟨start, len⟩ := e
    rw [List.map_cons, List.sum_cons] at hr ⊢
    rw [List.flatMap_cons, Buddy.addRegions_append]
    cases hl : checkedAdd start len with
    | none =>
      have hn : excludes lowEnd (start, len) = 0 := by simp [excludes, hl]
      rw [hn, Nat.zero_add] at hr ⊢
      simp only [takeEntries, offers, hl]
      exact ih hr
    | some limit =>
      have hre : excludes lowEnd (start, len) =
          inLowMib start limit - inWindow lowEnd start limit := by
        simp [excludes, hl]
      rw [hre] at hr ⊢
      simp only [takeEntries, offers, hl]
      rw [Buddy.addRegions_append, ← offer_eq,
        subU64_ok (inWindow_le_inLowMib hlow start limit)]
      cases offer b (max start lowUsableStart) (min limit lowEnd) with
      | error why => rfl
      | ok b₁ =>
        rw [bind_of_eq_ok rfl, bind_of_eq_ok rfl, bind_of_eq_ok rfl, addU64_ok (by omega),
          bind_of_eq_ok rfl, ← offer_eq]
        cases offer b₁ (max start oneMib) limit with
        | error why => rfl
        | ok b₂ =>
          rw [bind_of_eq_ok rfl, bind_of_eq_ok rfl, ih (by omega)]
          simp [Nat.add_assoc]

end

/-! ### The totals of a boot -/

/-- An entry's length, unless the entry is passed over. -/
def seen (e : Nat × Nat) : Nat := if e.1 + e.2 < 2 ^ 64 then e.2 else 0

theorem seen_le (e : Nat × Nat) : seen e ≤ e.2 := by
  unfold seen
  split
  · exact le_rfl
  · exact Nat.zero_le _

theorem sum_seen (hlow : lowEnd ≤ lowUsableEnd) (entries : List (Nat × Nat)) :
    ((entries.flatMap (offers lowEnd)).map Prod.snd).sum + (entries.map (excludes lowEnd)).sum =
      (entries.map seen).sum := by
  induction entries with
  | nil => rfl
  | cons e entries ih =>
    have he := sum_offers hlow e
    simp only [List.flatMap_cons, List.map_append, List.sum_append, List.map_cons, List.sum_cons,
      seen] at he ih ⊢
    omega

theorem sum_seen_le (entries : List (Nat × Nat)) :
    (entries.map seen).sum ≤ (entries.map Prod.snd).sum :=
  List.sum_le_sum fun e _ => seen_le e

theorem sum_seen_eq_iff {entries : List (Nat × Nat)} (hw : ∀ e ∈ entries, e.1 < 2 ^ 64) :
    (entries.map seen).sum = (entries.map Prod.snd).sum ↔ ∀ e ∈ entries, e.1 + e.2 < 2 ^ 64 := by
  induction entries with
  | nil => simp
  | cons e entries ih =>
    rw [List.forall_mem_cons] at hw
    have hh := seen_le e
    have ht := sum_seen_le entries
    have hs : seen e = e.2 ↔ e.1 + e.2 < 2 ^ 64 := by
      unfold seen
      split <;> omega
    rw [List.forall_mem_cons, ← ih hw.2, List.map_cons, List.sum_cons, List.map_cons, List.sum_cons]
    omega

/-- The bytes that are offered are in the window or above 1 MiB. -/
theorem mem_offers {e p : Nat × Nat} (hp : p ∈ offers lowEnd e) {x : Nat} (hlo : p.1 ≤ x)
    (hhi : x < p.1 + p.2) : lowUsableStart ≤ x ∧ (x < lowEnd ∨ oneMib ≤ x) := by
  have ho : ∀ {start stop : Nat}, p ∈ offered start stop → start ≤ x ∧ x < stop := by
    intro start stop hp
    unfold offered at hp
    split at hp
    · rw [List.mem_singleton.mp hp] at hlo hhi
      omega
    · cases hp
  have hs : lowUsableStart ≤ oneMib := by decide
  unfold offers at hp
  split at hp
  · cases hp
  · rcases List.mem_append.mp hp with hp | hp
    · have := ho hp
      omega
    · have := ho hp
      omega

theorem init_boot (mem₀ mem : Nat → Nat) (segment : Nat) {usable : List (Nat × Nat)}
    (hsum : (usable.map Prod.snd).sum < 2 ^ 64) :
    (Buddy.paged (usable.flatMap (offers (ebdaFloor segment))) ≤ 2 ^ 32 + 127 ∧
      ∃ f, (boot mem₀).init mem segment usable = .ok f ∧ f.total = (usable.map seen).sum ∧
        ∀ r ∈ f.allocator.regions, ∃ e ∈ usable.flatMap (offers (ebdaFloor segment)),
          e.1 ≤ r.1 ∧ r.2 ≤ e.1 + e.2) ∨
    (2 ^ 32 + 127 < Buddy.paged (usable.flatMap (offers (ebdaFloor segment))) ∧
      (boot mem₀).init mem segment usable = .error (.arithmetic .overflow)) := by
  have hlow := ebdaFloor_le segment
  have hs := sum_seen hlow usable
  have hle := sum_seen_le usable
  have hmax : maxRegions = 128 := rfl
  have hz : (Buddy.new mem).accounted = 0 := rfl
  have hn : (Buddy.new mem).tally = 0 := rfl
  have hi : (boot mem₀).init mem segment usable =
      match takeEntries (ebdaFloor segment) usable (.new mem, 0) with
      | .error why => .error (.arithmetic why)
      | .ok (b, excluded) =>
        .ok { allocator := b, excludedLowBytes := excluded, initialised := true } := rfl
  rw [hi, takeEntries_eq hlow (by omega)]
  rcases (Buddy.filling_new mem).addRegions_cases
      (usable.flatMap (offers (ebdaFloor segment))) (by omega) (by omega) with
    ⟨hlt, b, hb, hrun⟩ | ⟨ho, he⟩
  · refine .inl ⟨by omega, ?_⟩
    rw [hb]
    refine ⟨_, rfl, ?_, fun r hr => ?_⟩
    · have ha := Buddy.accounted_of_run hrun
      simp only [total]
      omega
    · exact (Buddy.regions_of_run hrun r hr).resolve_left List.not_mem_nil
  · rw [he]
    exact .inr ⟨by omega, rfl⟩

/-- No managed byte lies below 0x1000 or from the EBDA to 1 MiB. -/
def AvoidsFirmware (f : Frames) (segment : Nat) : Prop :=
  ∀ r ∈ f.allocator.regions, ∀ x, r.1 ≤ x → x < r.2 →
    lowUsableStart ≤ x ∧ (x < ebdaFloor segment ∨ oneMib ≤ x)

/-- For every map whose lengths are together a word, and every EBDA word: the part of
an entry in the window is no larger than its part below 1 MiB; `init` manages no
firmware byte if it returns; and it returns with the totals of the map exactly when
no entry's end overflows and the refused regions can be counted. -/
theorem boot_accounting_iff (mem₀ mem : Nat → Nat) (segment : Nat) (usable : List (Nat × Nat))
    (hword : ∀ e ∈ usable, e.1 < 2 ^ 64) (hsum : (usable.map Prod.snd).sum < 2 ^ 64) :
    (∀ start limit, inWindow (ebdaFloor segment) start limit ≤ inLowMib start limit) ∧
    (∀ f, (boot mem₀).init mem segment usable = .ok f → f.AvoidsFirmware segment) ∧
    ((∃ f, (boot mem₀).init mem segment usable = .ok f ∧ f.total = (usable.map Prod.snd).sum) ↔
      (∀ e ∈ usable, e.1 + e.2 < 2 ^ 64) ∧
        Buddy.paged (usable.flatMap (offers (ebdaFloor segment))) ≤ 2 ^ 32 + 127) := by
  refine ⟨inWindow_le_inLowMib (ebdaFloor_le segment), ?_⟩
  rcases init_boot mem₀ mem segment hsum with
    ⟨hpaged, f, hf, htotal, hregions⟩ | ⟨hover, herror⟩
  · rw [hf]
    constructor
    · intro f' hf' r hr x hlo hhi
      cases hf'
      obtain ⟨p, hp, hple, hpge⟩ := hregions r hr
      obtain ⟨e, -, hp⟩ := List.mem_flatMap.mp hp
      exact mem_offers hp (hple.trans hlo) (Nat.lt_of_lt_of_le hhi hpge)
    · rw [← sum_seen_eq_iff hword, ← htotal]
      constructor
      · rintro ⟨f', hf', heq⟩
        cases hf'
        exact ⟨heq, hpaged⟩
      · rintro ⟨heq, -⟩
        exact ⟨f, rfl, heq⟩
  · rw [herror]
    constructor
    · intro f hf
      cases hf
    · refine iff_of_false ?_ fun h => Nat.not_le.mpr hover h.2
      rintro ⟨f, hf, -⟩
      cases hf

/-- Conventional memory to 0xA0000, with an EBDA at 0x80000, and 64 KiB above 1 MiB. -/
theorem boot_accounting_conventional :
    ∃ f, (boot fun _ => 0).init (fun _ => 0) 0x8000 [(0, 0xA0000), (0x100000, 0x10000)] = .ok f ∧
      f.total = 0xB0000 := by
  obtain ⟨-, -, hiff⟩ := boot_accounting_iff (fun _ => 0) (fun _ => 0) 0x8000
    [(0, 0xA0000), (0x100000, 0x10000)] (by decide) (by decide)
  exact hiff.mpr ⟨by decide, by decide +kernel⟩

/-- An entry of two pages that starts in the last page is counted nowhere. -/
theorem overflowing_entry_uncounted :
    ([((2 ^ 64 - 4096 : Nat), 8192)].map Prod.snd).sum = 8192 ∧
      ∃ f, (boot fun _ => 0).init (fun _ => 0) 0 [(2 ^ 64 - 4096, 8192)] = .ok f ∧ f.total = 0 :=
  ⟨by decide, _, rfl, rfl⟩

end Frames

end Qunix.Mm
