/-
Descriptors and rings in memory (`crates/qunix-virtio/src/lib.rs`), and what a
device that follows the split-ring format reads there.
-/

import Qunix.Lib.Bytes
import Qunix.Virtio.Operations

namespace Qunix.Virtio

open Qunix.Lib

def descFNext : Nat := 1
def descFWrite : Nat := 2

def Flags.word (f : Flags) : Nat :=
  (if f.next then descFNext else 0) + if f.write then descFWrite else 0

namespace Descriptor

def bytes : Nat := 16

def toBytes (d : Descriptor) : List UInt8 :=
  toLE 8 d.addr ++ (toLE 4 d.len ++ (toLE 2 d.flags.word ++ toLE 2 d.next))

@[simp] theorem length_toBytes (d : Descriptor) : d.toBytes.length = bytes := by
  simp [toBytes, bytes]

end Descriptor

structure RingLayout where
  desc : Nat
  avail : Nat
  used : Nat
  bytes : Nat
deriving DecidableEq, Repr

/-- `RING_FOOTER` -/
def ringFooter : Nat := 2

def alignUp (value unit : Nat) : Nat := (value + unit - 1) / unit * unit

def ringLayout (size : Nat) : RingLayout :=
  let desc := 0
  let avail := desc + Descriptor.bytes * size
  let availEnd := avail + ringHeader + 2 * size + ringFooter
  let used := alignUp availEnd 4
  { desc := desc, avail := avail, used := used, bytes := used + ringHeader + 8 * size + ringFooter }

namespace SplitQueue

def availIdxOffset : Nat := 2
def availSlotsOffset : Nat := ringHeader

end SplitQueue

/-! ### The device's side -/

/-- A descriptor as the device reads it. -/
structure Fetched where
  addr : Nat
  len : Nat
  flags : Nat
  next : Nat
deriving DecidableEq, Repr

namespace Fetched

/-- The bit for `NEXT`. -/
def more (d : Fetched) : Bool := d.flags.testBit 0

/-- The bit for `WRITE`. -/
def writable (d : Fetched) : Bool := d.flags.testBit 1

end Fetched

/-- Entry `index` of the descriptor table at `table`. -/
def fetch (m : Nat → UInt8) (table index : Nat) : Fetched where
  addr := readLE m (table + 16 * index) 8
  len := readLE m (table + 16 * index + 8) 4
  flags := readLE m (table + 16 * index + 12) 2
  next := readLE m (table + 16 * index + 14) 2

/-- The chain from `index` on, at most `n` descriptors long. -/
def fetchChain (m : Nat → UInt8) (table : Nat) : Nat → Nat → List Fetched
  | 0, _ => []
  | n + 1, index =>
    let d := fetch m table index
    d :: if d.more then fetchChain m table n d.next else []

/-- The entry in slot `slot` of the available ring at `avail`. -/
def availSlot (m : Nat → UInt8) (avail slot : Nat) : Nat := readLE m (avail + 4 + 2 * slot) 2

def availIndex (m : Nat → UInt8) (avail : Nat) : Nat := readLE m (avail + 2) 2

theorem Flags.word_lt (f : Flags) : f.word < 256 ^ 2 := by
  obtain ⟨_ | _, _ | _⟩ := f <;> decide

theorem Flags.testBit_next (f : Flags) : f.word.testBit 0 = f.next := by
  obtain ⟨_ | _, _ | _⟩ := f <;> rfl

theorem Flags.testBit_write (f : Flags) : f.word.testBit 1 = f.write := by
  obtain ⟨_ | _, _ | _⟩ := f <;> rfl

variable {m : Nat → UInt8} {table n i : Nat}

theorem fetch_toBytes {index : Nat} {d : Descriptor}
    (h : readBytes m (table + 16 * index) 16 = d.toBytes) (ha : d.addr < 2 ^ 64)
    (hlen : d.len < 2 ^ 32) :
    (fetch m table index).addr = d.addr ∧ (fetch m table index).len = d.len ∧
      (fetch m table index).more = d.flags.next ∧ (fetch m table index).writable = d.flags.write ∧
      (d.next < 2 ^ 16 → (fetch m table index).next = d.next) := by
  obtain ⟨h₀, h⟩ := readBytes_eq_append (k := 8) length_toLE h
  obtain ⟨h₁, h⟩ := readBytes_eq_append (k := 4) length_toLE h
  obtain ⟨h₂, h₃⟩ := readBytes_eq_append (k := 2) length_toLE h
  have hf : (fetch m table index).flags = d.flags.word :=
    readLE_of_readBytes d.flags.word_lt h₂
  refine ⟨readLE_of_readBytes ha h₀, readLE_of_readBytes hlen h₁, ?_, ?_,
    fun hn => readLE_of_readBytes hn h₃⟩
  · rw [Fetched.more, hf, Flags.testBit_next]
  · rw [Fetched.writable, hf, Flags.testBit_write]

theorem fetchChain_of_more (h : (fetch m table i).more = true) :
    fetchChain m table (n + 1) i =
      fetch m table i :: fetchChain m table n (fetch m table i).next := by
  simp [fetchChain, h]

theorem fetchChain_of_last (h : (fetch m table i).more = false) :
    fetchChain m table (n + 1) i = [fetch m table i] := by
  simp [fetchChain, h]

end Qunix.Virtio
