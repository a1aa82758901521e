/-
The program loader (`kernel/src/process.rs`).

`from_elf` makes an address space, maps and fills the pages of each segment, gives each
page the union of what its segments ask for, and adds a stack. Segments are
`Qunix.Elf`'s; the passes run the iterator again and again, which yields the same
segments each time. Addresses are numbers below 2 ^ 64.

An error return drops the address space; the model hands it back with the error, in the
state in which it is dropped.
-/

import Qunix.Elf.Parse
import Qunix.Lib.OrderedMap
import Qunix.Paging.UserSpace

namespace Qunix.Loader

open Qunix.Lib Qunix.Paging Qunix.Elf

def userStackTop : Nat := 0x7fff00000000

def userStackPages : Nat := 4

inductive LoadError where
  | elf (e : Failure)
  | outOfMemory
  | map (e : MapError)
  | badAddress
  | notUserAddress (va : Nat)
  | writeExecutePage (va : Nat)
deriving DecidableEq

/-- `va` as the page tables take it. -/
def addr (va : Nat) : Addr := BitVec.ofNat 64 va

/-- A range of addresses, `start..stop`. -/
structure AddrRange where
  start : Nat
  stop : Nat
deriving DecidableEq

/-- `step_by(4096)`. -/
def AddrRange.pages (range : AddrRange) : List Nat :=
  (List.range ((range.stop - range.start + 0xfff) / 0x1000)).map fun k => range.start + k * 0x1000

/-- `checked_next_multiple_of(4096)`, without the check. -/
def nextMultiple (a : Nat) : Nat := (a + 0xfff) / 0x1000 * 0x1000

def segmentPages (segment : Segment) : Except LoadError AddrRange :=
  let start := segment.vaddr - segment.vaddr % 0x1000
  let stop := nextMultiple (segment.vaddr + segment.memSize)
  -- either sum may leave the 64 bits
  if 2 ^ 64 ≤ segment.vaddr + segment.memSize ∨ 2 ^ 64 ≤ stop then .error .badAddress
  else if VmSpace.userMax < stop then .error (.notUserAddress segment.vaddr)
  else if start < VmSpace.userMin then .error (.notUserAddress segment.vaddr)
  else .ok ⟨start, stop⟩

variable (m : Mapper)

/-- A page an earlier segment has mapped is skipped. -/
def mapPage (va : Nat) : Attempt Space LoadError Unit := do
  if (← Attempt.get).isMapped (addr va) then
    return ()
  else
    let _ ← (Space.mapNewPage m (addr va) true true).mapErr .map

/-- The rest of a segment's file image, page by page. -/
def copyFrom (segment : Segment) (copied : Nat) : Attempt Space LoadError Unit :=
  if _h : copied < segment.data.length then do
    let va := segment.vaddr + copied
    match (← Attempt.get).translate (addr va) with
    | none => .fail .badAddress
    | some pa =>
      let run := min (0x1000 - va % 0x1000) (segment.data.length - copied)
      .modify fun s => { s with mem := writeBytes s.mem pa ((segment.data.drop copied).take run) }
      copyFrom segment (copied + run)
  else
    return ()
termination_by segment.data.length - copied
decreasing_by omega

/-- The mapping pass over one segment. -/
def loadSegment (segment : Segment) : Attempt Space LoadError Unit := do
  let range ← .lift (segmentPages segment)
  range.pages.forM (mapPage m)
  copyFrom segment 0

/-- The `BTreeMap` from the addresses of pages to whether they are written and executed. -/
abbrev Permissions := OrderedMap Nat (Bool × Bool)

/-- `entry(va).or_insert((false, false))`, then both permissions added. -/
def Permissions.add (pages : Permissions) (va : Nat) (writable executable : Bool) : Permissions :=
  pages.upsert va fun entry =>
    ((entry.getD (false, false)).1 || writable, (entry.getD (false, false)).2 || executable)

/-- The union over the segments that touch a page. -/
def combine : List Segment → Permissions → Except LoadError Permissions
  | [], pages => .ok pages
  | segment :: segments, pages => do
    let range ← segmentPages segment
    combine segments
      (range.pages.foldl (fun pages va => pages.add va segment.writable segment.executable) pages)

def protectPage (page : Nat × Bool × Bool) : Attempt Space LoadError Unit :=
  if page.2.1 && page.2.2 then .fail (.writeExecutePage page.1)
  else (Space.setPermissions m (addr page.1) page.2.1 page.2.2).mapErr .map

def mapStackPage (page : Nat) : Attempt Space LoadError Unit := do
  let _ ← (Space.mapNewPage m (addr (userStackTop - (page + 1) * 0x1000)) true false).mapErr .map

/-- What `from_elf` does with a new address space. -/
def load (elf : Elf64) : Attempt Space LoadError Unit := do
  let segments ← .lift (elf.segments.mapError .elf)
  segments.forM fun segment => do
    let _ ← .lift (segmentPages segment)
  segments.forM (loadSegment m)
  let pages ← .lift (combine segments .empty)
  pages.entries.forM (protectPage m)
  (List.range userStackPages).forM (mapStackPage m)

structure Process where
  space : Space
  entry : Nat
  stackTop : Nat

def fromElf (kernelRoot : Nat) (bytes : Bytes) (w : Machine) :
    Except (LoadError × Option Space) Process :=
  match parse bytes with
  | .error e => .error (.elf e, none)
  | .ok elf =>
    match Space.new kernelRoot w with
    | none => .error (.outOfMemory, none)
    | some space =>
      match load m elf space with
      | (.ok (), space) => .ok ⟨space, elf.entry, userStackTop⟩
      | (.error e, space) => .error (e, some space)

end Qunix.Loader
