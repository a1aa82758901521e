/-
Frames in a load, from the first to the last.

Whatever step of `from_elf` fails, and wherever the allocator runs dry, the space that is
dropped gives back the frames that were handed out for it.
-/

import Qunix.Loader.Passes
import Qunix.Paging.KernelHalf
import Qunix.Paging.Ownership
import Qunix.Paging.Radix

namespace Qunix.Loader

open Qunix.Lib Qunix.Lib.Attempt Qunix.Paging Qunix.Elf

variable {m : Mapper} {Maps : Tables → Nat → List Nat → View → Prop} {start : List (Option Nat)}
  {half : Fin 512 → Option Entry}

theorem copyFrom_owns (segment : Segment) (copied : Nat) :
    Keeps (Space.Owns Maps start half) (copyFrom segment copied) := by
  induction hl : segment.data.length - copied using Nat.strong_induction_on generalizing copied with
  | _ left ih =>
    rw [copyFrom]
    split
    case isFalse => exact Meets.pure fun _ h => h
    case isTrue hc =>
      refine Meets.read fun s hs => ?_
      split
      · exact Meets.fail fun _ h => h ▸ hs
      · refine Meets.bind (Meets.modify fun s h => ?_)
          fun _ => ih (segment.data.length - (copied + _)) (by omega) _ rfl
        exact (h ▸ hs).withMem _

theorem lift_owns {α : Type} (r : Except LoadError α) :
    Keeps (Space.Owns Maps start half) (Attempt.lift r : Attempt Space LoadError α) :=
  Meets.lift (fun _ h _ _ => h) fun _ h => h

theorem mapNewPage_owns (hm : m.Documented Maps) {va : Addr} {w x : Bool} :
    Keeps (Space.Owns Maps start half)
      (do let _ ← (Space.mapNewPage m va w x).mapErr LoadError.map :
          Attempt Space LoadError Unit) :=
  Meets.bind (Meets.mapErr (keeps_of_state fun _ h => h.mapNewPage hm))
    fun _ => Meets.pure fun _ h => h

theorem loadSegment_owns (hm : m.Documented Maps) (segment : Segment) :
    Keeps (Space.Owns Maps start half) (loadSegment m segment) := by
  refine Meets.bind (lift_owns _) fun range => ?_
  refine Meets.bind (Meets.forM_keeps fun va _ => ?_) fun _ => copyFrom_owns segment 0
  refine Meets.read fun s hs => Meets.ite (fun _ => Meets.pure ?_) fun _ => ?_
  · rintro _ rfl
    exact hs
  · exact (mapNewPage_owns hm).of_state hs

theorem canonical_of_mem {segments : List Segment} {pages : Permissions} {page : Nat × Bool × Bool}
    (hp : combine segments .empty = .ok pages) (hpa : page ∈ pages.entries) :
    Space.Canonical (addr page.1) := by
  obtain ⟨n, rfl, hn⟩ := (combine_spec hp).2 page hpa
  have := (touched_bounds (segments_of_combine hp) hn).2
  left
  rw [toNat_addr (by omega)]
  omega

theorem load_owns (hm : m.Documented Maps) (elf : Elf64) :
    Keeps (Space.Owns Maps start half) (load m elf) := by
  refine Meets.bind (lift_owns _) fun segments => ?_
  refine Meets.bind (Meets.forM_keeps fun segment _ => ?_) fun _ => ?_
  · exact Meets.bind (lift_owns _) fun _ => Meets.pure fun _ h => h
  refine Meets.bind (Meets.forM_keeps fun segment _ => loadSegment_owns hm segment) fun _ => ?_
  refine Meets.bind (Q := fun pages s =>
      combine segments .empty = .ok pages ∧ Space.Owns Maps start half s)
    (Meets.lift (fun s h pages hp => ⟨hp, h⟩) fun _ h => h) fun pages => ?_
  refine Meets.assuming fun hp => ?_
  refine Meets.bind (Meets.forM_keeps fun page hpa => ?_) fun _ => ?_
  · refine Meets.ite (fun _ => Meets.fail fun _ h => h) fun _ => Meets.mapErr ?_
    exact keeps_of_state fun s h => h.setPermissions hm (canonical_of_mem hp hpa)
  · exact Meets.forM_keeps fun k _ => mapNewPage_owns hm

/-- The allocator hands out no frame twice, and none that somebody holds: the kernel its
root and its tables, callers of `map_user` what they pass in. -/
structure Supplied (kernelRoot : Nat) (held : Nat → Prop) (mach : Machine) : Prop where
  nodup : (mach.answers.filterMap id).Nodup
  unheld : ∀ f, held f → some f ∉ mach.answers
  root : held kernelRoot
  tables : ∀ {level f}, SharedTable mach.tables kernelRoot level f → held f

variable {kernelRoot : Nat} {held : Nat → Prop} {mach : Machine}

theorem Supplied.owns_new (h : Supplied kernelRoot held mach) (hm : m.Documented Maps) {s : Space}
    (hnew : Space.new kernelRoot mach = some s) :
    Space.Owns Maps mach.answers (mach.tables.p4 kernelRoot) s :=
  Space.Owns.new hm h.nodup (h.unheld _ h.root) (fun hf => h.unheld _ (h.tables hf)) hnew

theorem Supplied.fromElf_cases (h : Supplied kernelRoot held mach) (hm : m.Documented Maps)
    (bytes : Bytes) :
    (∃ e, fromElf m kernelRoot bytes mach = .error (e, none) ∧
        ((∃ failure, parse bytes = .error failure) ∨ Space.new kernelRoot mach = none)) ∨
      (∃ e s, fromElf m kernelRoot bytes mach = .error (e, some s) ∧
        Space.Owns Maps mach.answers (mach.tables.p4 kernelRoot) s) ∨
      ∃ p, fromElf m kernelRoot bytes mach = .ok p ∧
        Space.Owns Maps mach.answers (mach.tables.p4 kernelRoot) p.space := by
  unfold fromElf
  cases parse bytes with
  | error e => exact .inl ⟨_, rfl, .inl ⟨e, rfl⟩⟩
  | ok elf =>
    cases hnew : Space.new kernelRoot mach with
    | none => exact .inl ⟨_, rfl, .inr rfl⟩
    | some s =>
      have ho := (load_owns hm elf).state (h.owns_new hm hnew)
      dsimp only
      cases hl : load m elf s with
      | mk r s' =>
        rw [hl] at ho
        cases r with
        | ok => exact .inr (.inr ⟨_, rfl, ho⟩)
        | error e => exact .inr (.inl ⟨e, s', rfl, ho⟩)

/-- The frames of a space are conserved when a load fails, and after a load or a `new` and any
calls. A load that fails without a space has been handed no frame. -/
theorem frames_conserved (hm : m.Documented Maps) (hmach : Supplied kernelRoot held mach)
    (bytes : Bytes) (calls : List Space.Call) (hcalls : ∀ c ∈ calls, c.Proper) :
    (∀ e s, fromElf m kernelRoot bytes mach = .error (e, some s) →
        Space.Conserves mach.answers held s) ∧
      (∀ e, fromElf m kernelRoot bytes mach = .error (e, none) →
        (∃ failure, parse bytes = .error failure) ∨ ∀ pa, mach.answers.head? ≠ some (some pa)) ∧
      (∀ p, fromElf m kernelRoot bytes mach = .ok p →
        Space.Conserves mach.answers held (calls.foldl (Space.call m) p.space)) ∧
      ∀ s, Space.new kernelRoot mach = some s →
        Space.Conserves mach.answers held (calls.foldl (Space.call m) s) := by
  refine ⟨fun e s hload => ?_, fun e hload => ?_, fun p hload => ?_, fun s hnew => ?_⟩
  · rcases hmach.fromElf_cases hm bytes with ⟨e', heq, -⟩ | ⟨e', s', heq, howns⟩ | ⟨p, heq, -⟩
    all_goals
      rw [heq] at hload
      cases hload
    exact howns.conserves hmach.nodup hmach.unheld
  · rcases hmach.fromElf_cases hm bytes with ⟨e', -, hnone⟩ | ⟨e', s', heq, -⟩ | ⟨p, heq, -⟩
    · refine hnone.imp_right fun hnone pa hhead => ?_
      obtain ⟨answers, hanswers⟩ : ∃ answers, mach.answers = some pa :: answers :=
        List.head?_eq_some_iff.mp hhead
      rw [Space.new, hanswers] at hnone
      cases hnone
    all_goals
      rw [heq] at hload
      cases hload
  · rcases hmach.fromElf_cases hm bytes with ⟨e', heq, -⟩ | ⟨e', s', heq, -⟩ | ⟨p', heq, howns⟩
    all_goals
      rw [heq] at hload
      cases hload
    exact (howns.calls hm hcalls).conserves hmach.nodup hmach.unheld
  · exact ((hmach.owns_new hm hnew).calls hm hcalls).conserves hmach.nodup hmach.unheld

/-- A kernel with one table, memory full of old bytes, and some frames to hand out. -/
def supply (frames : Nat) : Machine where
  tables := bootTables
  mem := fun _ => 0xcc
  answers := (List.range frames).map fun k => some (0x10000 + k * 0x1000)

theorem supplied (frames : Nat) :
    Supplied 0x1000 (fun f => f = 0x1000 ∨ f = 0x5000) (supply frames) where
  nodup := by
    have hs : (supply frames).answers.filterMap id =
        (List.range frames).map fun k => 0x10000 + k * 0x1000 := by
      simp [supply]
    rw [hs, List.nodup_iff_pairwise_ne, List.pairwise_map]
    exact List.nodup_range.imp fun hne heq => hne (by omega)
  unheld := by
    rintro f hf hmem
    obtain ⟨k, -, heq⟩ := List.mem_map.mp hmem
    have := Option.some.inj heq
    omega
  root := .inl rfl
  tables := by
    intro level f hf
    cases hf with
    | p3 hi he =>
      simp only [supply, bootTables] at he
      split_ifs at he
      cases he
      exact .inr rfl
    | p2 _ he | p1 _ he => cases he

def dropsSpace : Except (LoadError × Option Space) Process → Bool
  | .error (_, some _) => true
  | _ => false

/-- A load that succeeds with the twelfth frame, then calls that fail; and a load that runs
dry in the middle. -/
theorem frames_conserved_dry :
    (∃ p, fromElf radix 0x1000 .minimal (supply 12) = .ok p ∧
      Space.Conserves (supply 12).answers (fun f => f = 0x1000 ∨ f = 0x5000)
        ([.mapNewPage 0x500000#64 true false, .mapUser 0x400000#64 0x5000 true false,
          .setPermissions 0x400000#64 false false].foldl (Space.call radix) p.space)) ∧
      ∃ e s, fromElf radix 0x1000 .minimal (supply 8) = .error (e, some s) ∧
        Space.Conserves (supply 8).answers (fun f => f = 0x1000 ∨ f = 0x5000) s := by
  constructor
  · have hrun : (fromElf radix 0x1000 .minimal (supply 12)).toOption.isSome = true := by
      decide +kernel
    obtain ⟨p, hp⟩ := Option.isSome_iff_exists.mp hrun
    have hp := ok_of_toOption hp
    exact ⟨p, hp, (frames_conserved radix_documented (supplied 12) .minimal _
      (by decide)).2.2.1 p hp⟩
  · have hrun : dropsSpace (fromElf radix 0x1000 .minimal (supply 8)) = true := by decide +kernel
    unfold dropsSpace at hrun
    split at hrun
    · rename_i e s heq
      exact ⟨e, s, heq,
        (frames_conserved radix_documented (supplied 8) .minimal [] (by decide)).1 e s heq⟩
    · cases hrun

end Qunix.Loader
