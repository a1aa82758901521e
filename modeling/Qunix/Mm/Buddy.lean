/-
The physical frame allocator (`crates/qunix-mm/src/buddy.rs`).

A `Buddy` is the allocator's record together with the memory its backing
reaches: `mem` gives the 64-bit word at an address, which is what `read_link`
and `write_link` access. Free blocks of one order form an intrusive doubly
linked list through their own first words, with a tag that says which list the
block is on.

Machine words are natural numbers. Sums of counters are checked as the
development profile checks them: an overflow is a `Panic`. Address arithmetic
needs no check, because every address that reaches `word` or `setWord` is a
multiple of the page size below `2 ^ 64` and the offsets are below the page
size. The loops of the source carry an explicit bound on their iterations that
the source's own loop variable never exceeds.
-/

import Qunix.Lib.Dyadic

namespace Qunix.Mm

def pageSize : Nat := 4096
/-- Highest order the allocator coalesces to. -/
def maxOrder : Nat := 18
def maxRegions : Nat := 128
/-- `u64::MAX`, the end of a free list. -/
def NIL : Nat := 2 ^ 64 - 1

def offNext : Nat := 0
def offPrev : Nat := 8
def offTag : Nat := 16
def tagSeed : Nat := 0x51554E49585F4652

/-- Why a call stops the machine. -/
inductive Panic where
  | overflow
  | orderAboveMax (order : Nat)
  | freeBeforeRegion
  | doubleFree (pa order containing containingOrder : Nat)
deriving DecidableEq, Repr

/-! ### Word arithmetic -/

def addU64 (a b : Nat) : Except Panic Nat :=
  if a + b < 2 ^ 64 then .ok (a + b) else .error .overflow

def addU32 (a b : Nat) : Except Panic Nat :=
  if a + b < 2 ^ 32 then .ok (a + b) else .error .overflow

def subU64 (a b : Nat) : Except Panic Nat :=
  if b ≤ a then .ok (a - b) else .error .overflow

def checkedAdd (a b : Nat) : Option Nat :=
  if a + b < 2 ^ 64 then some (a + b) else none

def checkedNextMultipleOf (a m : Nat) : Option Nat :=
  if a % m = 0 then some a else checkedAdd a (m - a % m)

/-- The complement `!a` of a `w`-bit word. -/
def notU (w a : Nat) : Nat := (2 ^ w - 1) ^^^ a

/-- The number of zero bits below the lowest set bit of a `w`-bit word. -/
def trailingZeros (w a : Nat) : Nat := ((List.range w).find? a.testBit).getD w

/-! ### The allocator's record -/

structure Buddy where
  mem : Nat → Nat
  freeLists : Nat → Nat
  nonempty : Nat
  freeBytes : Nat
  foreignFrees : Nat
  rejectedUnlinks : Nat
  truncatedLists : Nat
  /-- `regions[..region_count]`. -/
  regions : List (Nat × Nat)
  edgeDroppedBytes : Nat
  refusedRegionBytes : Nat
  refusedRegions : Nat
  malformedRegionBytes : Nat

def blockSize (order : Nat) : Nat := pageSize <<< order

/-- The word stamped into a block while it is on the free list of `order`. -/
def freeTag (pa order : Nat) : Nat :=
  (tagSeed ^^^ pa ^^^ (order * 0x9E3779B97F4A7C15) % 2 ^ 64) ||| 1

namespace Buddy

/-- The allocator before any region, over a backing that holds `mem`. -/
def new (mem : Nat → Nat) : Buddy where
  mem := mem
  freeLists := fun _ => NIL
  nonempty := 0
  freeBytes := 0
  foreignFrees := 0
  rejectedUnlinks := 0
  truncatedLists := 0
  regions := []
  edgeDroppedBytes := 0
  refusedRegionBytes := 0
  refusedRegions := 0
  malformedRegionBytes := 0

/-- The first recorded region that contains `block`. -/
def regionOf (b : Buddy) (block : Nat) : Option (Nat × Nat) :=
  b.regions.find? fun r => decide (r.1 ≤ block) && decide (block < r.2)

def word (b : Buddy) (pa offset : Nat) : Nat := b.mem (pa + offset)

def setWord (b : Buddy) (pa offset value : Nat) : Buddy :=
  { b with mem := Function.update b.mem (pa + offset) value }

def push (b : Buddy) (pa order : Nat) : Buddy :=
  let head := b.freeLists order
  let b := b.setWord pa offNext head
  let b := b.setWord pa offPrev NIL
  let b := b.setWord pa offTag (freeTag pa order)
  let b := if head ≠ NIL then b.setWord head offPrev pa else b
  { b with
    freeLists := Function.update b.freeLists order pa
    nonempty := b.nonempty ||| 1 <<< order }

/-- A link that could name a block of `order`: `NIL`, or an address inside a
recorded region with the alignment of the order. -/
def plausibleLink (b : Buddy) (link order : Nat) : Bool :=
  link == NIL || (link % blockSize order == 0 && (b.regionOf link).isSome)

/-- A neighbour that is itself free at `order`. -/
def freeNeighbour (b : Buddy) (link order : Nat) : Bool :=
  link == NIL || (b.plausibleLink link order && b.word link offTag == freeTag link order)

def pop (b : Buddy) (order : Nat) : Except Panic (Option Nat × Buddy) :=
  let head := b.freeLists order
  if head = NIL then .ok (none, b)
  else do
    let link := b.word head offNext
    -- An implausible link cuts the list short and is counted.
    let (next, truncated) ←
      if b.plausibleLink link order then pure (link, b.truncatedLists)
      else do
        let truncated ← addU64 b.truncatedLists 1
        pure (NIL, truncated)
    let b := { b with
      truncatedLists := truncated
      freeLists := Function.update b.freeLists order next }
    let b :=
      if next = NIL then { b with nonempty := b.nonempty &&& notU 32 (1 <<< order) }
      else b.setWord next offPrev NIL
    pure (some head, b.setWord head offTag 0)

def unlink (b : Buddy) (pa order : Nat) : Except Panic (Bool × Buddy) :=
  if b.word pa offTag ≠ freeTag pa order then .ok (false, b)
  else
    let prev := b.word pa offPrev
    let next := b.word pa offNext
    if !b.freeNeighbour prev order || !b.freeNeighbour next order then do
      let rejected ← addU64 b.rejectedUnlinks 1
      pure (false, { b with rejectedUnlinks := rejected })
    else
      let b :=
        if prev = NIL then
          let b := { b with freeLists := Function.update b.freeLists order next }
          if next = NIL then { b with nonempty := b.nonempty &&& notU 32 (1 <<< order) } else b
        else b.setWord prev offNext next
      let b := if next ≠ NIL then b.setWord next offPrev prev else b
      .ok (true, b.setWord pa offTag 0)

/-! ### Adding a region -/

/-- The order of the largest naturally aligned block at `addr` that fits below
`limit`. -/
def carveOrder (addr limit : Nat) : Nat :=
  let byAlign := trailingZeros 64 addr - trailingZeros 64 pageSize
  let byFit := Nat.log2 ((limit - addr) / pageSize)
  min (min byAlign byFit) maxOrder

/-- The `while addr < end` loop of `add_region`; every turn takes at least one
page. -/
def carve (b : Buddy) (addr limit : Nat) : Nat → Except Panic Buddy
  | 0 => .ok b
  | pages + 1 =>
    if addr < limit then do
      let order := carveOrder addr limit
      let b := b.push addr order
      let freeBytes ← addU64 b.freeBytes (blockSize order)
      carve { b with freeBytes := freeBytes } (addr + blockSize order) limit pages
    else .ok b

/-- An entry discarded whole. -/
def malformed (b : Buddy) (len : Nat) : Except Panic Buddy := do
  let bytes ← addU64 b.malformedRegionBytes len
  pure { b with malformedRegionBytes := bytes }

def addRegion (b : Buddy) (start len : Nat) : Except Panic Buddy :=
  match checkedNextMultipleOf start pageSize, checkedAdd start len with
  | some addr, some limit =>
    let last := limit &&& notU 64 (pageSize - 1)
    if last ≤ addr then b.malformed len
    else do
      let slop ← addU64 (addr - start) (limit - last)
      let edge ← addU64 b.edgeDroppedBytes slop
      let b := { b with edgeDroppedBytes := edge }
      if b.regions.length = maxRegions then do
        let bytes ← addU64 b.refusedRegionBytes (last - addr)
        let count ← addU32 b.refusedRegions 1
        pure { b with refusedRegionBytes := bytes, refusedRegions := count }
      else
        let b := { b with regions := b.regions ++ [(addr, last)] }
        b.carve addr last ((last - addr) / pageSize)
  | _, _ => b.malformed len

/-! ### Allocation -/

/-- Splitting downwards: the upper half of each split goes back to its list. -/
def splitDown (b : Buddy) (pa order : Nat) : Nat → Buddy
  | 0 => b
  | source + 1 =>
    if order < source + 1 then (b.push (pa + blockSize source) source).splitDown pa order source
    else b

def alloc (b : Buddy) (order : Nat) : Except Panic (Option Nat × Buddy) :=
  if maxOrder < order then .ok (none, b)
  else
    let usable := b.nonempty &&& notU 32 (1 <<< order - 1)
    if usable = 0 then .ok (none, b)
    else do
      let source := trailingZeros 32 usable
      let (popped, b) ← b.pop source
      match popped with
      | none => pure (none, b)
      | some pa =>
        let b := b.splitDown pa order source
        let freeBytes ← subU64 b.freeBytes (blockSize order)
        pure (some pa, { b with freeBytes := freeBytes })

/-! ### Freeing -/

/-- Undoes the speculative `free_bytes` and bills the block as foreign. -/
def refuse (b : Buddy) (order : Nat) : Except Panic Buddy := do
  let freeBytes ← subU64 b.freeBytes (blockSize order)
  let foreignFrees ← addU64 b.foreignFrees (blockSize order)
  pure { b with freeBytes := freeBytes, foreignFrees := foreignFrees }

/-- The double-free scan: no block containing `pa` may be free at an order
whose list has an entry. One set bit of `mask` is consumed per turn. -/
def scanContaining (b : Buddy) (pa order regionStart : Nat) : Nat → Nat → Except Panic Unit
  | 0, _ => .ok ()
  | bits + 1, mask =>
    if mask = 0 then .ok ()
    else
      let o := trailingZeros 32 mask
      let mask := mask &&& (mask - 1)
      let containing := pa &&& notU 64 (blockSize o - 1)
      if containing < regionStart then .ok ()
      else if b.word containing offTag = freeTag containing o then
        .error (.doubleFree pa order containing o)
      else b.scanContaining pa order regionStart bits mask

/-- The merge loop; it runs while `order` is below `maxOrder`. -/
def coalesce (b : Buddy) (regionStart regionEnd pa order : Nat) :
    Nat → Except Panic (Nat × Nat × Buddy)
  | 0 => .ok (pa, order, b)
  | levels + 1 =>
    let size := blockSize order
    let buddy := pa ^^^ size
    if buddy < regionStart ∨ regionEnd ≤ buddy ∨ regionEnd - buddy < size then
      .ok (pa, order, b)
    else do
      let (merged, b) ← b.unlink buddy order
      if merged then b.coalesce regionStart regionEnd (min pa buddy) (order + 1) levels
      else pure (pa, order, b)

def free (b : Buddy) (pa order : Nat) : Except Panic Buddy :=
  if maxOrder < order then .error (.orderAboveMax order)
  else if b.regions = [] then .error .freeBeforeRegion
  else do
    let freeBytes ← addU64 b.freeBytes (blockSize order)
    let b := { b with freeBytes := freeBytes }
    match b.regionOf pa with
    | none => b.refuse order
    | some (regionStart, regionEnd) =>
      if regionEnd - pa < blockSize order then b.refuse order
      else if pa % blockSize order ≠ 0 then b.refuse order
      else do
        b.scanContaining pa order regionStart 32 b.nonempty
        let (pa, order, b) ← b.coalesce regionStart regionEnd pa order (maxOrder - order)
        pure (b.push pa order)

end Buddy

end Qunix.Mm
