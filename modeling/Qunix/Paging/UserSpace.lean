/-
User address spaces as owners of frames (`kernel/src/vmspace.rs`).

A `VmSpace` allocates its root, the intermediate tables the mapper asks for and the
user pages, and writes each frame down in `owned`; on drop it gives back what the
list names. `frames::alloc(0)` is a list of answers, one for each call, so the
allocator may run dry anywhere. Operations are attempts on a `Space`: one that
fails keeps the frames it took.

`Mapper.Documented` is what the `x86_64` crate documents about 4 KiB pages of the
user half. `Maps t root tables view` reads: the user half of `root` maps the pages of
`view` and no others, through tables that are private to it. The contents of the
frames that serve as tables are in `Tables`, not in the byte memory; the latter is what
the direct map and user code read and write. `VirtAddr::new` refuses addresses that
are not canonical.
-/

import Qunix.Lib.Attempt
import Qunix.Lib.Bytes
import Qunix.Paging.AddressSpace

namespace Qunix.Paging

open Function Qunix.Lib

/-! ### What the processor permits -/

structure Access where
  pa : Nat
  user : Bool
  writable : Bool
  executable : Bool
deriving DecidableEq, Repr

def Entry.has (e : Entry) (flag : BitVec 64) : Bool := e.flags &&& flag != 0#64

/-- Every entry of a walk has to permit. -/
def permits (walk : List Entry) (pa : Nat) : Access where
  pa := pa
  user := walk.all (·.has PageFlags.user)
  writable := walk.all (·.has PageFlags.writable)
  executable := walk.all fun e => !e.has PageFlags.noExecute

/-- The walk of the processor, with the permissions it collects. -/
def access (t : Tables) (root : Nat) (va : Addr) : Option Access :=
  (t.p4 root (p4Index va)).bind fun e4 =>
    (t.p3 e4.addr (p3Index va)).bind fun e3 =>
      if e3.huge then some (permits [e4, e3] (e3.addr + va.toNat % 2 ^ 30))
      else (t.p2 e3.addr (p2Index va)).bind fun e2 =>
        if e2.huge then some (permits [e4, e3, e2] (e2.addr + va.toNat % 2 ^ 21))
        else (t.p1 e2.addr (p1Index va)).map fun e1 =>
          permits [e4, e3, e2, e1] (e1.addr + va.toNat % 2 ^ 12)

theorem translate_eq_access (t : Tables) (root : Nat) (va : Addr) :
    translate t root va = (access t root va).map Access.pa := by
  unfold translate access
  cases t.p4 root (p4Index va) with
  | none => rfl
  | some e4 =>
    simp only [Option.bind_some]
    cases t.p3 e4.addr (p3Index va) with
    | none => rfl
    | some e3 =>
      simp only [Option.bind_some]
      split
      · rfl
      · cases t.p2 e3.addr (p2Index va) with
        | none => rfl
        | some e2 =>
          simp only [Option.bind_some]
          split
          · rfl
          · cases t.p1 e2.addr (p1Index va) <;> rfl

/-! ### What the mapper documents -/

/-- A mapped page. -/
structure Leaf where
  frame : Nat
  writable : Bool
  executable : Bool
deriving DecidableEq, Repr

def Leaf.at (leaf : Leaf) (offset : Nat) : Access :=
  ⟨leaf.frame + offset, true, leaf.writable, leaf.executable⟩

/-- The pages of a user half, by page number. -/
abbrev View := Nat → Option Leaf

def pageOf (va : Addr) : Nat := va.toNat / 0x1000

/-- The flags `map_user` asks for. -/
def VmSpace.userFlags (writable executable : Bool) : BitVec 64 :=
  PageFlags.present ||| PageFlags.user ||| (if writable then PageFlags.writable else 0#64) |||
    if executable then 0#64 else PageFlags.noExecute

/-- The allocator answers with frames that differ from each other and from those in use. -/
structure Fresh (frames : List (Option Nat)) (used : List Nat) : Prop where
  nodup : (frames.filterMap id).Nodup
  unused : ∀ f ∈ used, some f ∉ frames

/-- The last table on the way to an address. -/
def lastTable (t : Tables) (root : Nat) (va : Addr) : Option Nat :=
  (t.p4 root (p4Index va)).bind fun e4 =>
    (t.p3 e4.addr (p3Index va)).bind fun e3 =>
      if e3.huge then none
      else (t.p2 e3.addr (p2Index va)).bind fun e2 => if e2.huge then none else some e2.addr

/-- The tables of a set of frames, and a root's entries for one half, are the same. -/
def SameTables (t t' : Tables) (among : Nat → Prop) : Prop :=
  ∀ f, among f → t'.p3 f = t.p3 f ∧ t'.p2 f = t.p2 f ∧ t'.p1 f = t.p1 f

structure Mapper.Documented (m : Mapper) (Maps : Tables → Nat → List Nat → View → Prop) : Prop where
  /-- An unused user half maps nothing. -/
  empty : ∀ {t root}, (∀ i : Fin 512, i.val < 256 → t.p4 root i = none) →
    Maps t root [] fun _ => none
  /-- The user half depends on its entries in the root and on its tables. -/
  congr : ∀ {t t' root tables view}, Maps t root tables view →
    (∀ i : Fin 512, i.val < 256 → t'.p4 root i = t.p4 root i) → SameTables t t' (· ∈ tables) →
    Maps t' root tables view
  access : ∀ {t root tables view va}, Maps t root tables view → va.toNat < VmSpace.userMax →
    access t root va = (view (pageOf va)).map fun leaf => leaf.at (va.toNat % 0x1000)
  /-- `map_to` maps an unmapped page. Each new table is a frame the allocator gave. -/
  mapTo_ok : ∀ {t root tables view va pa w x frames}, Maps t root tables view →
    va.toNat < VmSpace.userMax → va.toNat % 0x1000 = 0 → pa % 0x1000 = 0 →
    Fresh frames (root :: tables) →
    let out := m.mapTo t root .size4KiB va pa (PageFlags.toX86 (VmSpace.userFlags w x)) frames
    out.result = .ok () → view (pageOf va) = none ∧
      Maps out.tables root (tables ++ (frames.take out.taken).filterMap id)
        (update view (pageOf va) (some ⟨pa, w, x⟩))
  mapTo_error : ∀ {t root tables view va pa w x frames}, Maps t root tables view →
    va.toNat < VmSpace.userMax → va.toNat % 0x1000 = 0 → pa % 0x1000 = 0 →
    Fresh frames (root :: tables) →
    let out := m.mapTo t root .size4KiB va pa (PageFlags.toX86 (VmSpace.userFlags w x)) frames
    ∀ e, out.result = .error e →
      Maps out.tables root (tables ++ (frames.take out.taken).filterMap id) view
  /-- Tables of others, and the other half of the root, stay as they are. -/
  mapTo_elsewhere : ∀ {t root tables view va pa w x frames}, Maps t root tables view →
    va.toNat < VmSpace.userMax → va.toNat % 0x1000 = 0 → pa % 0x1000 = 0 →
    Fresh frames (root :: tables) →
    let out := m.mapTo t root .size4KiB va pa (PageFlags.toX86 (VmSpace.userFlags w x)) frames
    (∀ i : Fin 512, 256 ≤ i.val → out.tables.p4 root i = t.p4 root i) ∧
      SameTables t out.tables fun f => f ∉ tables ∧ some f ∉ frames.take out.taken
  unmap_ok : ∀ {t t' root tables view va pa}, Maps t root tables view →
    va.toNat < VmSpace.userMax → va.toNat % 0x1000 = 0 → m.unmap t root va = (t', .ok pa) →
    ∃ leaf, view (pageOf va) = some leaf ∧ leaf.frame = pa ∧
      Maps t' root tables (update view (pageOf va) none)
  unmap_error : ∀ {t t' root tables view va e}, Maps t root tables view →
    va.toNat < VmSpace.userMax → va.toNat % 0x1000 = 0 → m.unmap t root va = (t', .error e) →
    Maps t' root tables view
  /-- `unmap` clears at most an entry of the last table on the way. -/
  unmap_elsewhere : ∀ {t root va},
    let t' := (m.unmap t root va).1
    t'.p4 = t.p4 ∧ t'.p3 = t.p3 ∧ t'.p2 = t.p2 ∧
      ∀ f, t'.p1 f = t.p1 f ∨ some f = lastTable t root va

/-! ### `VmSpace` -/

/-- What the frame allocator and the direct map give access to. -/
structure Machine where
  tables : Tables
  mem : Nat → UInt8
  /-- What `frames::alloc(0)` answers, call by call. -/
  answers : List (Option Nat)

structure Space extends Machine where
  rootPa : Nat
  owned : List Nat

namespace Space

variable (m : Mapper)

/-- Fills a frame with zeros. -/
def zeroed (mem : Nat → UInt8) (pa : Nat) : Nat → UInt8 :=
  writeBytes mem pa (List.replicate 0x1000 0)

/-- `VmSpace::new`, on the recorded kernel root. -/
def new (kernelRoot : Nat) (w : Machine) : Option Space :=
  match w.answers with
  | some rootPa :: answers => some
      { tables := VmSpace.new w.tables kernelRoot rootPa
        mem := zeroed w.mem rootPa
        answers := answers
        rootPa := rootPa
        owned := [rootPa] }
  | _ => none

/-- `frames::alloc(0)`, on behalf of the space. -/
def framesAlloc {ε : Type} : Attempt Space ε (Option Nat) := fun s =>
  match s.answers with
  | [] => (.ok none, s)
  | answer :: answers => (.ok answer, { s with answers := answers })

/-- How often `map_user` calls its closure. -/
def calls (s : Space) (va : Addr) (pa : Nat) (writable executable : Bool) : Nat :=
  if VmSpace.userMax ≤ va.toNat ∨ va.toNat < VmSpace.userMin then 0
  else if va.toNat % 0x1000 ≠ 0 ∨ pa % 0x1000 ≠ 0 then 0
  else (m.mapTo s.tables s.rootPa .size4KiB va pa
    (PageFlags.toX86 (VmSpace.userFlags writable executable)) (s.answers.map allocateFrame)).taken

/-- The closure records every frame it passes on. -/
def mapUser (va : Addr) (pa : Nat) (writable executable : Bool) : Attempt Space MapError Unit :=
  fun s =>
    let out := VmSpace.mapUser m s.tables s.rootPa va pa writable executable s.answers
    let taken := s.calls m va pa writable executable
    (out.2, { s with
      tables := out.1
      answers := s.answers.drop taken
      owned := s.owned ++ (s.answers.take taken).filterMap id })

def mapNewPage (va : Addr) (writable executable : Bool) : Attempt Space MapError Nat := do
  match ← framesAlloc with
  | none => .fail .outOfFrames
  | some pa =>
    .modify fun s => { s with mem := zeroed s.mem pa, owned := s.owned ++ [pa] }
    mapUser m va pa writable executable
    return pa

def translate (s : Space) (va : Addr) : Option Nat := Paging.translate s.tables s.rootPa va

def isMapped (s : Space) (va : Addr) : Bool := (s.translate va).isSome

def unmap (va : Addr) : Attempt Space MapError Nat := fun s =>
  let out := AddressSpace.unmap m s.tables s.rootPa va
  (out.2, { s with tables := out.1 })

def setPermissions (va : Addr) (writable executable : Bool) : Attempt Space MapError Unit := do
  let pa ← unmap m va
  mapUser m va pa writable executable

/-- The frames `drop` frees, in order; the space in CR3 must not be dropped. -/
def drop (s : Space) (activeRoot : Nat) : Option (List Nat) :=
  if activeRoot = s.rootPa then none else some s.owned.reverse

/-! ### Frames -/

variable {m} {Maps : Tables → Nat → List Nat → View → Prop} {s : Space} {view : View} {va : Addr}
  {pa : Nat} {w x : Bool}

/-- The tables of the user half are the space's own, and the allocator hands out none of
the space's frames again. -/
structure Sound (Maps : Tables → Nat → List Nat → View → Prop) (s : Space) (view : View) :
    Prop where
  maps : ∃ tables, Maps s.tables s.rootPa tables view ∧ ∀ f ∈ tables, f ∈ s.owned
  root_owned : s.rootPa ∈ s.owned
  fresh : Fresh s.answers s.owned

end Space

theorem filterMap_allocateFrame_sublist (frames : List (Option Nat)) :
    ((frames.map allocateFrame).filterMap id).Sublist (frames.filterMap id) := by
  induction frames with
  | nil => exact .slnil
  | cons answer frames ih =>
    cases answer with
    | none => exact ih
    | some pa =>
      by_cases hpa : pa % 0x1000 = 0
      · simpa [allocateFrame, Option.filter, hpa] using ih
      · simpa [allocateFrame, Option.filter, hpa] using ih.trans (List.sublist_cons_self _ _)

theorem some_mem_of_map_allocateFrame {frames : List (Option Nat)} {f : Nat}
    (h : some f ∈ frames.map allocateFrame) : some f ∈ frames := by
  obtain ⟨answer, ha, heq⟩ := List.mem_map.mp h
  obtain rfl : answer = some f := (Option.filter_eq_some_iff.mp heq).1
  exact ha

namespace Fresh

variable {frames : List (Option Nat)} {used used' : List Nat}

theorem subset (h : Fresh frames used) (hu : ∀ f ∈ used', f ∈ used) : Fresh frames used' where
  nodup := h.nodup
  unused := fun f hf => h.unused f (hu f hf)

theorem allocated (h : Fresh frames used) : Fresh (frames.map allocateFrame) used where
  nodup := h.nodup.sublist (filterMap_allocateFrame_sublist frames)
  unused := fun f hf hmem => h.unused f hf (some_mem_of_map_allocateFrame hmem)

theorem drop (h : Fresh frames used) (n : Nat) :
    Fresh (frames.drop n) (used ++ (frames.take n).filterMap id) := by
  have hs : (frames.take n).filterMap id ++ (frames.drop n).filterMap id =
      frames.filterMap id := by rw [← List.filterMap_append, List.take_append_drop]
  have hn := h.nodup
  rw [← hs, List.nodup_append] at hn
  obtain ⟨-, hl, ha⟩ := hn
  constructor
  case nodup => exact hl
  case unused =>
    intro f hf hmem
    rcases List.mem_append.mp hf with hf | hf
    · exact h.unused f hf (List.mem_of_mem_drop hmem)
    · exact ha f hf f (List.mem_filterMap.mpr ⟨some f, hmem, rfl⟩) rfl

theorem tail {answer : Option Nat} (h : Fresh (answer :: frames) used) :
    Fresh frames (used ++ answer.toList) := by
  have := h.drop 1
  cases answer <;> simpa using this

end Fresh

namespace Space

variable {m : Mapper} {Maps : Tables → Nat → List Nat → View → Prop} {s : Space} {view : View}
  {va : Addr} {pa : Nat} {w x : Bool}

/-- An address `map_user` accepts. -/
structure UserPage (va : Addr) : Prop where
  min_le : VmSpace.userMin ≤ va.toNat
  lt_max : va.toNat < VmSpace.userMax
  aligned : va.toNat % 0x1000 = 0

theorem mapUser_refused (m : Mapper) (w x : Bool) (s : Space)
    (h : ¬ (UserPage va ∧ pa % 0x1000 = 0)) :
    ∃ e, mapUser m va pa w x s = (.error e, s) := by
  simp only [mapUser, calls, VmSpace.mapUser]
  split
  · exact ⟨.notUserAddress, by simp⟩
  · have hmis : va.toNat % 0x1000 ≠ 0 ∨ pa % 0x1000 ≠ 0 := by
      by_contra hal
      exact h ⟨⟨by omega, by omega, by omega⟩, by omega⟩
    have hb : va.toNat % PageSize.size4KiB.bytes ≠ 0 ∨ pa % PageSize.size4KiB.bytes ≠ 0 := hmis
    simp only [AddressSpace.map, AddressSpace.mapSized, if_pos hb, if_pos hmis]
    exact ⟨.misaligned, by simp⟩

theorem mapUser_eq (hva : UserPage va) (hpa : pa % 0x1000 = 0) :
    let out := m.mapTo s.tables s.rootPa .size4KiB va pa (PageFlags.toX86 (VmSpace.userFlags w x))
      (s.answers.map allocateFrame)
    mapUser m va pa w x s =
      (out.result.mapError fun err => mapToError err (frameFailure s.answers out.taken),
        { s with
          tables := out.tables
          answers := s.answers.drop out.taken
          owned := s.owned ++ (s.answers.take out.taken).filterMap id }) := by
  have hu : ¬ (VmSpace.userMax ≤ va.toNat ∨ va.toNat < VmSpace.userMin) := by
    have := hva.min_le
    have := hva.lt_max
    omega
  have hal : ¬ (va.toNat % 0x1000 ≠ 0 ∨ pa % 0x1000 ≠ 0) := by
    have := hva.aligned
    omega
  have hb : ¬ (va.toNat % PageSize.size4KiB.bytes ≠ 0 ∨ pa % PageSize.size4KiB.bytes ≠ 0) := hal
  simp only [mapUser, calls, VmSpace.mapUser, AddressSpace.map, AddressSpace.mapSized, if_neg hu,
    if_neg hal, if_neg hb]
  rfl

/-- The space with a new page's frame recorded, zeroed and not mapped yet. -/
def claim (s : Space) (pa : Nat) (answers : List (Option Nat)) : Space :=
  { s with
    mem := zeroed s.mem pa
    answers := answers
    owned := s.owned ++ [pa] }

theorem mapNewPage_of_some {answers : List (Option Nat)} (h : s.answers = some pa :: answers) :
    mapNewPage m va w x s =
      ((mapUser m va pa w x (s.claim pa answers)).1.map fun _ => pa,
        (mapUser m va pa w x (s.claim pa answers)).2) := by
  have ha : (framesAlloc : Attempt Space MapError (Option Nat)) s =
      (.ok (some pa), { s with answers := answers }) := by
    simp [framesAlloc, h]
  rw [mapNewPage, Attempt.andThen_of_ok ha]
  change ((mapUser m va pa w x >>= fun _ => Pure.pure pa) : Attempt Space MapError Nat)
    (s.claim pa answers) = _
  cases hrun : mapUser m va pa w x (s.claim pa answers) with
  | mk r s' =>
    cases r with
    | ok =>
      rw [Attempt.andThen_of_ok hrun]
      rfl
    | error =>
      rw [Attempt.andThen_of_error hrun]
      rfl

theorem mapNewPage_of_none (h : ∀ pa answers, s.answers ≠ some pa :: answers) :
    mapNewPage m va w x s = (.error .outOfFrames, { s with answers := s.answers.tail }) := by
  have hal : (framesAlloc : Attempt Space MapError (Option Nat)) s =
      (.ok none, { s with answers := s.answers.tail }) := by
    simp only [framesAlloc]
    cases ha : s.answers with
    | nil =>
      have hs : { s with answers := [] } = s := by rw [← ha]
      exact congrArg (Prod.mk _) hs.symm
    | cons answer answers =>
      cases answer with
      | none => rfl
      | some pa => exact absurd ha (h pa answers)
  rw [mapNewPage, Attempt.andThen_of_ok hal]
  rfl

namespace Sound

theorem claim (h : Sound Maps s view) {answers : List (Option Nat)}
    (ha : s.answers = some pa :: answers) : Sound Maps (s.claim pa answers) view where
  maps := by
    obtain ⟨tables, hm, hown⟩ := h.maps
    exact ⟨tables, hm, fun f hf => List.mem_append_left _ (hown f hf)⟩
  root_owned := List.mem_append_left _ h.root_owned
  fresh := by
    have hfr := h.fresh
    rw [ha] at hfr
    exact hfr.tail

variable {tables : List Nat}

variable (h : Sound Maps s view)

include h

/-- The tables that are linked come from answers that are recorded. -/
theorem of_maps {t : Tables} {taken : Nat} {view' : View}
    {mem : Nat → UInt8} (hown : ∀ f ∈ tables, f ∈ s.owned)
    (hm : Maps t s.rootPa
      (tables ++ ((s.answers.map allocateFrame).take taken).filterMap id) view') :
    Sound Maps ⟨⟨t, mem, s.answers.drop taken⟩, s.rootPa,
      s.owned ++ (s.answers.take taken).filterMap id⟩ view' where
  maps := by
    refine ⟨_, hm, fun f hf => ?_⟩
    rcases List.mem_append.mp hf with hf | hf
    · exact List.mem_append_left _ (hown f hf)
    · rw [← List.map_take] at hf
      obtain ⟨answer, ha, rfl⟩ := List.mem_filterMap.mp hf
      exact List.mem_append_right _
        (List.mem_filterMap.mpr ⟨_, some_mem_of_map_allocateFrame ha, rfl⟩)
  root_owned := List.mem_append_left _ h.root_owned
  fresh := h.fresh.drop taken

theorem fresh_for (hown : ∀ f ∈ tables, f ∈ s.owned) :
    Fresh (s.answers.map allocateFrame) (s.rootPa :: tables) := by
  apply h.fresh.allocated.subset
  intro f hf
  rcases List.mem_cons.mp hf with rfl | hf
  · exact h.root_owned
  · exact hown f hf

/-- A mapping is made, or refused without a change to what is mapped. -/
theorem mapUser (hm : m.Documented Maps) (va : Addr) (pa : Nat)
    (w x : Bool) :
    ((mapUser m va pa w x s).1 = .ok () ∧ UserPage va ∧ pa % 0x1000 = 0 ∧
        view (pageOf va) = none ∧
        Sound Maps (mapUser m va pa w x s).2 (update view (pageOf va) (some ⟨pa, w, x⟩))) ∨
      ((∃ e, (mapUser m va pa w x s).1 = .error e) ∧
       Sound Maps (mapUser m va pa w x s).2 view) := by
  by_cases ha : UserPage va ∧ pa % 0x1000 = 0
  case neg =>
    obtain ⟨e, heq⟩ := mapUser_refused m w x s ha
    rw [heq]
    exact .inr ⟨⟨e, rfl⟩, h⟩
  case pos =>
    obtain ⟨hva, hpa⟩ := ha
    obtain ⟨tables, hma, hown⟩ := h.maps
    have hf := h.fresh_for hown
    have hok := hm.mapTo_ok (w := w) (x := x) hma hva.lt_max hva.aligned hpa hf
    have he := hm.mapTo_error (w := w) (x := x) hma hva.lt_max hva.aligned hpa hf
    rw [mapUser_eq hva hpa]
    dsimp only at hok he ⊢
    generalize m.mapTo s.tables s.rootPa .size4KiB va pa (PageFlags.toX86 (VmSpace.userFlags w x))
      (s.answers.map allocateFrame) = out at hok he ⊢
    cases hr : out.result with
    | ok =>
      obtain ⟨hn, hma⟩ := hok hr
      exact .inl ⟨rfl, hva, hpa, hn, h.of_maps hown hma⟩
    | error e => exact .inr ⟨⟨_, rfl⟩, h.of_maps hown (he e hr)⟩

theorem unmap (hm : m.Documented Maps)
    (hva : va.toNat < VmSpace.userMax) :
    (∃ leaf, (unmap m va s).1 = .ok leaf.frame ∧ view (pageOf va) = some leaf ∧
        Sound Maps (unmap m va s).2 (update view (pageOf va) none)) ∨
      ((∃ e, (unmap m va s).1 = .error e) ∧ Sound Maps (unmap m va s).2 view) := by
  obtain ⟨tables, hma, hown⟩ := h.maps
  simp only [Space.unmap, AddressSpace.unmap]
  split_ifs with hal
  · exact .inr ⟨⟨_, rfl⟩, h⟩
  · rw [not_not] at hal
    cases hrun : m.unmap s.tables s.rootPa va with
    | mk t r =>
      cases r with
      | ok pa =>
        obtain ⟨leaf, hl, rfl, hma⟩ := hm.unmap_ok hma hva hal hrun
        exact .inl ⟨leaf, rfl, hl, ⟨tables, hma, hown⟩, h.root_owned, h.fresh⟩
      | error e =>
        have hma := hm.unmap_error hma hva hal hrun
        exact .inr ⟨⟨_, rfl⟩, ⟨tables, hma, hown⟩, h.root_owned, h.fresh⟩

end Sound

/-! ### New spaces -/

variable {kernelRoot : Nat} {mach : Machine}

theorem new_eq_some (h : new kernelRoot mach = some s) :
    mach.answers = some s.rootPa :: s.answers ∧ s.owned = [s.rootPa] ∧
      s.tables = VmSpace.new mach.tables kernelRoot s.rootPa := by
  unfold new at h
  split at h
  · rename_i rootPa answers ha
    cases h
    exact ⟨ha, rfl, rfl⟩
  · cases h

theorem sound_new (hm : m.Documented Maps) (hn : (mach.answers.filterMap id).Nodup)
    (h : new kernelRoot mach = some s) :
    Sound Maps s fun _ => none := by
  obtain ⟨ha, ho, ht⟩ := new_eq_some h
  constructor
  case maps =>
    refine ⟨[], hm.empty fun i hi => ?_, fun f hf => nomatch hf⟩
    rw [ht]
    simp [VmSpace.new, AddressSpace.copyKernelHalf, Nat.not_le.mpr hi]
  case root_owned =>
    rw [ho]
    exact List.mem_singleton_self _
  case fresh =>
    have hfr : Fresh mach.answers [] := ⟨hn, fun f hf => nomatch hf⟩
    rw [ha] at hfr
    rw [ho]
    exact hfr.tail

end Space

end Qunix.Paging
