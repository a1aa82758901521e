/-
Page tables (`crates/qunix-hal-x86_64/src/paging.rs`) and the address spaces the
kernel makes of them (`kernel/src/vmspace.rs`).

Tables are kept by level: a frame that serves as a table of one level serves as
a table of no other, so there are no recursive entries. `translate` is the walk
of the processor. The walk that edits the tables is the `x86_64` crate's; it is a
parameter (`Mapper`), and what its documentation says about top-level entries is
a hypothesis (`Mapper.Lawful`): an operation on one root touches that root's entry
on the way to the address and no other entry of any root, an entry in use keeps
its table, and removing a mapping removes no tables. Addresses are canonical, so
`VirtAddr::new` and `PhysAddr::new` do not panic. Flushes are left to
`Qunix.Tlb`.
-/

import Mathlib.Algebra.Group.Nat.Hom

namespace Qunix.Paging

open Function

/-! ### Tables -/

/-- A virtual address. -/
abbrev Addr := BitVec 64

/-- An entry in use: the frame it names and its flags. -/
structure Entry where
  addr : Nat
  flags : BitVec 64
deriving DecidableEq, Repr

def hugePage : BitVec 64 := 1#64 <<< 7

def Entry.huge (e : Entry) : Bool := e.flags &&& hugePage != 0#64

/-- A table; `none` is an unused entry. -/
abbrev Table := Fin 512 → Option Entry

/-- The frames that serve as tables, by level. -/
structure Tables where
  p4 : Nat → Table
  p3 : Nat → Table
  p2 : Nat → Table
  p1 : Nat → Table

/-- Nine bits of an address. -/
def index (va : Addr) (shift : Nat) : Fin 512 :=
  ⟨va.toNat / 2 ^ shift % 512, Nat.mod_lt _ (by decide)⟩

def p4Index (va : Addr) : Fin 512 := index va 39

def p3Index (va : Addr) : Fin 512 := index va 30

def p2Index (va : Addr) : Fin 512 := index va 21

def p1Index (va : Addr) : Fin 512 := index va 12

/-- The physical address the processor finds. -/
def translate (t : Tables) (root : Nat) (va : Addr) : Option Nat :=
  (t.p4 root (p4Index va)).bind fun e4 =>
    (t.p3 e4.addr (p3Index va)).bind fun e3 =>
      if e3.huge then some (e3.addr + va.toNat % 2 ^ 30)
      else (t.p2 e3.addr (p2Index va)).bind fun e2 =>
        if e2.huge then some (e2.addr + va.toNat % 2 ^ 21)
        else (t.p1 e2.addr (p1Index va)).map fun e1 => e1.addr + va.toNat % 2 ^ 12

/-- The table a top-level entry leads to. -/
def Tables.link (t : Tables) (root : Nat) (i : Fin 512) : Option Nat := (t.p4 root i).map Entry.addr

/-- Below the top level a walk depends on the root no more. -/
theorem translate_congr {t : Tables} {r r' : Nat} {va : Addr}
    (h : t.link r (p4Index va) = t.link r' (p4Index va)) :
    translate t r va = translate t r' va := by
  unfold Tables.link at h
  unfold translate
  cases hr : t.p4 r (p4Index va) with
  | none =>
    cases hr' : t.p4 r' (p4Index va) with
    | none => rfl
    | some e' => simp [hr, hr'] at h
  | some e =>
    cases hr' : t.p4 r' (p4Index va) with
    | none => simp [hr, hr'] at h
    | some e' =>
      have ha : e.addr = e'.addr := by simpa [hr, hr'] using h
      simp [ha]

/-! ### Halves -/

def sharesTheKernelHalf (va : Addr) : Bool := va &&& 1#64 <<< 47 != 0#64

theorem sharesTheKernelHalf_eq (va : Addr) : sharesTheKernelHalf va = va.toNat.testBit 47 := by
  have hbit : (1#64 <<< 47 : BitVec 64) = BitVec.twoPow 64 47 := rfl
  rw [sharesTheKernelHalf, hbit, BitVec.and_twoPow, ← BitVec.testBit_toNat]
  cases va.toNat.testBit 47 <;> rfl

/-- The kernel half is the addresses under the top-level entries from 256 on. -/
theorem sharesTheKernelHalf_iff {va : Addr} :
    sharesTheKernelHalf va = true ↔ 256 ≤ (p4Index va).val := by
  rw [sharesTheKernelHalf_eq, Nat.testBit_eq_decide_div_mod_eq, decide_eq_true_iff]
  simp only [p4Index, index]
  omega

/-! ### Errors -/

inductive MapError where
  | outOfFrames
  | alreadyMapped
  | notMapped
  | unsupportedPageSize
  | misaligned
  | corruptEntry
  | notUserAddress
deriving DecidableEq, Repr

/-- The crate's errors. -/
inductive MapToError where
  | frameAllocationFailed
  | pageAlreadyMapped
  | parentEntryHugePage
deriving DecidableEq, Repr

inductive UnmapError where
  | pageNotMapped
  | parentEntryHugePage
  | invalidFrameAddress
deriving DecidableEq, Repr

def mapToError (err : MapToError) (allocFailure : MapError) : MapError :=
  match err with
  | .frameAllocationFailed => allocFailure
  | .pageAlreadyMapped => .alreadyMapped
  | .parentEntryHugePage => .unsupportedPageSize

def unmapError : UnmapError → MapError
  | .pageNotMapped => .notMapped
  | .parentEntryHugePage => .unsupportedPageSize
  | .invalidFrameAddress => .corruptEntry

/-! ### The crate's mapper -/

inductive PageSize where
  | size4KiB
  | size2MiB
deriving DecidableEq, Repr

def PageSize.bytes : PageSize → Nat
  | .size4KiB => 0x1000
  | .size2MiB => 0x200000

/-- The tables after a `map_to`, its result, and how often it called the frame
allocator. -/
structure MapOutcome where
  tables : Tables
  result : Except MapToError Unit
  taken : Nat

structure Mapper where
  /-- `map_to` on a root. The list is what the frame allocator answers. -/
  mapTo : Tables → Nat → PageSize → Addr → Nat → BitVec 64 → List (Option Nat) → MapOutcome
  unmap : Tables → Nat → Addr → Tables × Except UnmapError Nat

/-- What the crate documents about top-level entries. Flags may be added to an
entry on the way. -/
structure Mapper.Lawful (m : Mapper) : Prop where
  mapTo_elsewhere : ∀ t root size va pa flags frames r i, some r ∉ frames →
    (r ≠ root ∨ i ≠ p4Index va) →
    (m.mapTo t root size va pa flags frames).tables.p4 r i = t.p4 r i
  mapTo_present : ∀ t root size va pa flags frames e, some root ∉ frames →
    t.p4 root (p4Index va) = some e →
    ∃ flags', (m.mapTo t root size va pa flags frames).tables.p4 root (p4Index va) =
      some ⟨e.addr, flags'⟩
  unmap_p4 : ∀ t root va, (m.unmap t root va).1.p4 = t.p4

/-! ### `AddressSpace` -/

namespace PageFlags

def present : BitVec 64 := 1#64

def writable : BitVec 64 := 1#64 <<< 1

def user : BitVec 64 := 1#64 <<< 2

def noCache : BitVec 64 := 1#64 <<< 4

def noExecute : BitVec 64 := 1#64 <<< 63

/-- The flags have the crate's bits; others are dropped. -/
def toX86 (flags : BitVec 64) : BitVec 64 :=
  flags &&& (present ||| writable ||| user ||| noCache ||| noExecute)

end PageFlags

/-- `ClosureFrames::allocate_frame`: a misaligned frame counts as none. -/
def allocateFrame (answer : Option Nat) : Option Nat := answer.filter fun pa => pa % 0x1000 == 0

/-- `frame_failure`, after some calls of the closure. -/
def frameFailure (frames : List (Option Nat)) (taken : Nat) : MapError :=
  if (frames.take taken).any fun answer => answer.any fun pa => pa % 0x1000 != 0 then .misaligned
  else .outOfFrames

namespace AddressSpace

variable (m : Mapper) (t : Tables) (root : Nat)

/-- What `map` and `map_2mib` have in common. -/
def mapSized (size : PageSize) (va : Addr) (pa : Nat) (flags : BitVec 64)
    (frames : List (Option Nat)) : Tables × Except MapError Unit :=
  if va.toNat % size.bytes ≠ 0 ∨ pa % size.bytes ≠ 0 then (t, .error .misaligned)
  else
    let out := m.mapTo t root size va pa flags (frames.map allocateFrame)
    (out.tables, out.result.mapError fun err => mapToError err (frameFailure frames out.taken))

def map (va : Addr) (pa : Nat) (flags : BitVec 64) (frames : List (Option Nat)) :
    Tables × Except MapError Unit :=
  mapSized m t root .size4KiB va pa (PageFlags.toX86 flags) frames

def map2mib (va : Addr) (pa : Nat) (flags : BitVec 64) (frames : List (Option Nat)) :
    Tables × Except MapError Unit :=
  mapSized m t root .size2MiB va pa (PageFlags.toX86 flags ||| hugePage) frames

def unmap (va : Addr) : Tables × Except MapError Nat :=
  if va.toNat % 0x1000 ≠ 0 then (t, .error .misaligned)
  else
    let out := m.unmap t root va
    (out.1, out.2.mapError unmapError)

/-- The entries from 256 on, one by one. -/
def copyKernelHalf (from_ : Nat) : Tables :=
  { t with p4 := update t.p4 root fun i => if 256 ≤ i.val then t.p4 from_ i else t.p4 root i }

end AddressSpace

/-! ### `VmSpace` -/

namespace VmSpace

def userMax : Nat := 0x800000000000

def userMin : Nat := 0x1000

/-- The tables after `VmSpace::new` took a frame for its root. -/
def new (t : Tables) (kernelRoot rootPa : Nat) : Tables :=
  AddressSpace.copyKernelHalf { t with p4 := update t.p4 rootPa fun _ => none } rootPa kernelRoot

def mapUser (m : Mapper) (t : Tables) (root : Nat) (va : Addr) (pa : Nat)
    (writable executable : Bool) (frames : List (Option Nat)) : Tables × Except MapError Unit :=
  if userMax ≤ va.toNat ∨ va.toNat < userMin then (t, .error .notUserAddress)
  else
    AddressSpace.map m t root va pa
      (PageFlags.present ||| PageFlags.user ||| (if writable then PageFlags.writable else 0#64) |||
        if executable then 0#64 else PageFlags.noExecute) frames

end VmSpace

def mapDevicePage (m : Mapper) (t : Tables) (root : Nat) (va : Addr) (phys : Nat)
    (frames : List (Option Nat)) : Tables × Except MapError Unit :=
  let flags :=
    PageFlags.present ||| PageFlags.writable ||| PageFlags.noCache ||| PageFlags.noExecute
  if (translate t root va).isSome then
    match AddressSpace.unmap m t root va with
    | (t', .ok _) => AddressSpace.map m t' root va phys flags frames
    | (t', .error err) => (t', .error err)
  else AddressSpace.map m t root va phys flags frames

/-! ### Top-level entries -/

namespace Mapper.Lawful

variable {m : Mapper} {t : Tables} {root r : Nat} {va : Addr} {pa : Nat} {flags : BitVec 64}
  {frames : List (Option Nat)} {i : Fin 512}

theorem not_mem_allocateFrame (h : some r ∉ frames) : some r ∉ frames.map allocateFrame := by
  intro hmem
  obtain ⟨answer, ha, heq⟩ := List.mem_map.mp hmem
  obtain rfl : answer = some r := (Option.filter_eq_some_iff.mp heq).1
  exact h ha

/-- A mapping leaves the tables of all entries in use where they are; a new table
is linked into the root at hand only. -/
theorem link_mapSized (hm : m.Lawful) {size : PageSize} (hr : some r ∉ frames)
    (hi : r ≠ root ∨ i ≠ p4Index va ∨ (t.p4 root i).isSome = true) :
    (AddressSpace.mapSized m t root size va pa flags frames).1.link r i = t.link r i := by
  unfold AddressSpace.mapSized
  split
  · rfl
  · have hf := not_mem_allocateFrame hr
    simp only [Tables.link]
    by_cases hel : r ≠ root ∨ i ≠ p4Index va
    · rw [hm.mapTo_elsewhere _ _ _ _ _ _ _ _ _ hf hel]
    · simp only [ne_eq, not_or, not_not] at hel
      obtain ⟨rfl, rfl⟩ := hel
      obtain ⟨e, he⟩ : ∃ e, t.p4 r (p4Index va) = some e := by
        rcases hi with h | h | h
        · exact absurd rfl h
        · exact absurd rfl h
        · exact Option.isSome_iff_exists.mp h
      obtain ⟨flags', hnew⟩ := hm.mapTo_present t r size va pa flags _ e hf he
      rw [hnew, he]
      rfl

theorem p4_unmap (hm : m.Lawful) : (AddressSpace.unmap m t root va).1.p4 = t.p4 := by
  unfold AddressSpace.unmap
  split
  · rfl
  · exact hm.unmap_p4 t root va

theorem link_mapDevicePage (hm : m.Lawful) (hr : some r ∉ frames)
    (hi : r ≠ root ∨ i ≠ p4Index va ∨ (t.p4 root i).isSome = true) :
    (mapDevicePage m t root va pa frames).1.link r i = t.link r i := by
  have hp4 : (AddressSpace.unmap m t root va).1.p4 = t.p4 := hm.p4_unmap
  simp only [mapDevicePage]
  split
  · split
    · rename_i t' _ heq
      rw [heq] at hp4
      have hl : t'.link r i = t.link r i := by rw [Tables.link, Tables.link, hp4]
      rw [← hl]
      exact hm.link_mapSized hr (by rwa [hp4])
    · rename_i t' _ heq
      rw [heq] at hp4
      rw [Tables.link, Tables.link, hp4]
  · exact hm.link_mapSized hr hi

theorem link_mapUser (hm : m.Lawful) {writable executable : Bool} (hr : some r ∉ frames)
    (hi : 256 ≤ i.val) :
    (VmSpace.mapUser m t root va pa writable executable frames).1.link r i = t.link r i := by
  unfold VmSpace.mapUser
  split
  · rfl
  · rename_i hu
    refine hm.link_mapSized hr (.inr (.inl ?_))
    rintro rfl
    simp only [VmSpace.userMax, p4Index, index] at hu hi
    omega

end Mapper.Lawful

end Qunix.Paging
