/-
ELF64 parsing.

The parser reads fields of a file it did not write, adds and multiplies them, and
slices the file with what it gets. An index or a slice outside the file, and a sum
that `usize` does not hold, are panics of the model; the arithmetic the code checks is
refused where it fails. `parse` decides `WellFormed`, which is stated over the plain
fields, and `segments` reads the same headers again.
-/

import Qunix.Lib.Bytes
import Qunix.Lib.Run
import Mathlib.Data.Nat.Bitwise

namespace Qunix.Elf

open Qunix.Lib

/-! ### The file -/

/-- A byte slice; its length is at most `isize::MAX`. -/
structure Bytes where
  data : List UInt8
  fits : data.length < 2 ^ 63

def Bytes.len (bytes : Bytes) : Nat := bytes.data.length

inductive ElfError where
  | tooShort
  | badMagic
  | notElf64
  | notX8664
  | notExecutable
  | badProgramHeader
  | segmentTooLarge
deriving DecidableEq

inductive Panic where
  | outOfBounds
  | overflow
deriving DecidableEq

/-- How a call can end without a value. -/
inductive Failure where
  | refused (e : ElfError)
  | panic (p : Panic)
deriving DecidableEq

def elfMagic : List UInt8 := [0x7f, 0x45, 0x4c, 0x46]
def elfclass64 : UInt8 := 2
def elfdata2lsb : UInt8 := 1
def evCurrent : UInt8 := 1
def etExec : Nat := 2
def emX8664 : Nat := 62
def ptLoad : Nat := 1
def pfX : Nat := 1
def pfW : Nat := 2

namespace Ehdr
def type : Nat := 16
def machine : Nat := 18
def entry : Nat := 24
def phoff : Nat := 32
def phentsize : Nat := 54
def phnum : Nat := 56
def size : Nat := 64
end Ehdr

namespace Phdr
def type : Nat := 0
def flags : Nat := 4
def offset : Nat := 8
def vaddr : Nat := 16
def filesz : Nat := 32
def memsz : Nat := 40
def size : Nat := 56
end Phdr

/-- One `PT_LOAD` segment: what to map, where, and with which permissions. -/
structure Segment where
  vaddr : Nat
  memSize : Nat
  data : List UInt8
  writable : Bool
  executable : Bool
deriving DecidableEq

structure Elf64 where
  bytes : Bytes
  entry : Nat
  phoff : Nat
  phentsize : Nat
  phnum : Nat

/-! ### Reads and sums -/

/-- `bytes[start..stop]`. -/
def slice (bytes : List UInt8) (start stop : Nat) : Except Failure (List UInt8) :=
  if start ≤ stop ∧ stop ≤ bytes.length then .ok ((bytes.drop start).take (stop - start))
  else .error (.panic .outOfBounds)

/-- `bytes[i]`. -/
def index (bytes : List UInt8) (i : Nat) : Except Failure UInt8 :=
  match bytes[i]? with
  | some byte => .ok byte
  | none => .error (.panic .outOfBounds)

/-- A sum or product that is taken to fit a `usize`. -/
def usize (v : Nat) : Except Failure Nat :=
  if v < 2 ^ 64 then .ok v else .error (.panic .overflow)

/-- A sum or product that is checked. -/
def checked (v : Nat) : Except Failure Nat :=
  if v < 2 ^ 64 then .ok v else .error (.refused .badProgramHeader)

/-- `if c { return Err(e) }`. -/
def refuseIf (c : Prop) [Decidable c] (e : ElfError) : Except Failure Unit :=
  if c then .error (.refused e) else .ok ()

/-- `read_u16`, `read_u32` and `read_u64`, by the number of bytes. -/
def read (width : Nat) (bytes : List UInt8) (start : Nat) : Except Failure Nat := do
  return ofLE (← slice bytes start (← usize (start + width)))

def readU16 : List UInt8 → Nat → Except Failure Nat := read 2
def readU32 : List UInt8 → Nat → Except Failure Nat := read 4
def readU64 : List UInt8 → Nat → Except Failure Nat := read 8

/-! ### The parser -/

namespace Elf64

def header (elf : Elf64) (index : Nat) : Except Failure (List UInt8) := do
  let start ← usize (elf.phoff + (← usize (index * elf.phentsize)))
  slice elf.bytes.data start (← usize (start + Phdr.size))

def validateSegment (elf : Elf64) (index : Nat) : Except Failure Unit := do
  let h ← elf.header index
  if (← readU32 h Phdr.type) ≠ ptLoad then
    return ()
  let offset ← readU64 h Phdr.offset
  let filesz ← readU64 h Phdr.filesz
  let memsz ← readU64 h Phdr.memsz
  refuseIf (filesz > memsz) .segmentTooLarge
  -- `usize` has 64 bits, so both conversions succeed
  let stop ← checked (offset + filesz)
  refuseIf (stop > elf.bytes.len) .badProgramHeader
  let _ ← checked ((← readU64 h Phdr.vaddr) + memsz)

def segment (elf : Elf64) (index : Nat) : Except Failure (Option Segment) := do
  let h ← elf.header index
  if (← readU32 h Phdr.type) ≠ ptLoad then
    return none
  let flags ← readU32 h Phdr.flags
  let offset ← readU64 h Phdr.offset
  let filesz ← readU64 h Phdr.filesz
  let vaddr ← readU64 h Phdr.vaddr
  let memSize ← readU64 h Phdr.memsz
  let data ← slice elf.bytes.data offset (← usize (offset + filesz))
  return some ⟨vaddr, memSize, data, flags &&& pfW != 0, flags &&& pfX != 0⟩

/-- What the iterator yields when it is run to its end. -/
def segments (elf : Elf64) : Except Failure (List Segment) :=
  (List.range elf.phnum).filterMapM elf.segment

end Elf64

def parse (bytes : Bytes) : Except Failure Elf64 := do
  refuseIf (bytes.len < Ehdr.size) .tooShort
  refuseIf ((← slice bytes.data 0 4) ≠ elfMagic) .badMagic
  refuseIf ((← index bytes.data 4) ≠ elfclass64) .notElf64
  refuseIf ((← index bytes.data 5) ≠ elfdata2lsb) .notElf64
  refuseIf ((← index bytes.data 6) ≠ evCurrent) .notElf64
  refuseIf ((← readU16 bytes.data Ehdr.machine) ≠ emX8664) .notX8664
  refuseIf ((← readU16 bytes.data Ehdr.type) ≠ etExec) .notExecutable
  let entry ← readU64 bytes.data Ehdr.entry
  let phoff ← readU64 bytes.data Ehdr.phoff
  let phentsize ← readU16 bytes.data Ehdr.phentsize
  let phnum ← readU16 bytes.data Ehdr.phnum
  refuseIf (phentsize < Phdr.size) .badProgramHeader
  let tableLen ← checked (phnum * phentsize)
  let tableEnd ← checked (phoff + tableLen)
  refuseIf (tableEnd > bytes.len) .badProgramHeader
  let elf : Elf64 := ⟨bytes, entry, phoff, phentsize, phnum⟩
  (List.range phnum).forM elf.validateSegment
  return elf

/-! ### What a well-formed file is -/

/-- The word of `width` bytes at an offset. -/
def word (width : Nat) (bytes : List UInt8) (start : Nat) : Nat :=
  ofLE ((bytes.drop start).take width)

/-- The fields of a program header that the parser reads. -/
structure ProgramHeader where
  type : Nat
  flags : Nat
  offset : Nat
  vaddr : Nat
  filesz : Nat
  memsz : Nat
deriving DecidableEq

namespace Bytes

variable (bytes : Bytes)

def phoff : Nat := word 8 bytes.data 32
def phentsize : Nat := word 2 bytes.data 54
def phnum : Nat := word 2 bytes.data 56

/-- Where an entry of the program header table starts. -/
def entryStart (k : Nat) : Nat := bytes.phoff + k * bytes.phentsize

def programHeader (k : Nat) : ProgramHeader where
  type := word 4 bytes.data (bytes.entryStart k)
  flags := word 4 bytes.data (bytes.entryStart k + 4)
  offset := word 8 bytes.data (bytes.entryStart k + 8)
  vaddr := word 8 bytes.data (bytes.entryStart k + 16)
  filesz := word 8 bytes.data (bytes.entryStart k + 32)
  memsz := word 8 bytes.data (bytes.entryStart k + 40)

/-- The ELF64 little-endian version-1 x86-64 `ET_EXEC` identification. -/
structure Identified : Prop where
  magic : bytes.data.take 4 = elfMagic
  elf64 : bytes.data[4]? = some 2
  littleEndian : bytes.data[5]? = some 1
  version : bytes.data[6]? = some 1
  machine : word 2 bytes.data 18 = 62
  type : word 2 bytes.data 16 = 2

/-- The file image lies in the file, and in the memory; the memory does not wrap. -/
def Loadable (h : ProgramHeader) : Prop :=
  h.filesz ≤ h.memsz ∧ h.offset + h.filesz ≤ bytes.len ∧ h.vaddr + h.memsz < 2 ^ 64

instance (h : ProgramHeader) : Decidable (bytes.Loadable h) :=
  inferInstanceAs (Decidable (_ ∧ _ ∧ _))

structure WellFormed : Prop where
  header : 64 ≤ bytes.len
  identified : bytes.Identified
  stride : 56 ≤ bytes.phentsize
  table : bytes.phoff + bytes.phnum * bytes.phentsize ≤ bytes.len
  loadable : ∀ k < bytes.phnum, (bytes.programHeader k).type = ptLoad →
    bytes.Loadable (bytes.programHeader k)

/-- The segment an entry describes. -/
def segmentOf (h : ProgramHeader) : Option Segment :=
  if h.type = ptLoad then
    some ⟨h.vaddr, h.memsz, (bytes.data.drop h.offset).take h.filesz, h.flags.testBit 1,
      h.flags.testBit 0⟩
  else none

end Bytes

/-! ### Reads that succeed -/

section Reads

variable {bytes : List UInt8} {start stop width : Nat} {α : Type} {c : Prop} {v : Nat}

@[simp] theorem ok_bind {β : Type} (a : α) (f : α → Except Failure β) :
    (Except.ok a >>= f) = f a := rfl

theorem refuse_of [Decidable c] (h : c) (e : ElfError) (f : Unit → Except Failure α) :
    (refuseIf c e >>= f) = .error (.refused e) := by
  rw [refuseIf, if_pos h]
  rfl

theorem refuse_of_not [Decidable c] (h : ¬ c) (e : ElfError) (f : Unit → Except Failure α) :
    (refuseIf c e >>= f) = f () := by
  rw [refuseIf, if_neg h]
  rfl

theorem checked_of_lt (h : v < 2 ^ 64) : checked v = .ok v := if_pos h

theorem checked_bind_of_le (h : 2 ^ 64 ≤ v) (f : Nat → Except Failure α) :
    (checked v >>= f) = .error (.refused .badProgramHeader) := by
  rw [checked, if_neg (Nat.not_lt.mpr h)]
  rfl

theorem slice_ok (hle : start ≤ stop) (hs : stop ≤ bytes.length) :
    slice bytes start stop = .ok ((bytes.drop start).take (stop - start)) :=
  if_pos ⟨hle, hs⟩

theorem index_ok {i : Nat} (hi : i < bytes.length) : index bytes i = .ok bytes[i] := by
  simp [index, hi]

theorem usize_ok (h : v < 2 ^ 64) : usize v = .ok v := if_pos h

theorem read_ok (h : start + width ≤ bytes.length) (hlen : bytes.length < 2 ^ 64) :
    read width bytes start = .ok (word width bytes start) := by
  have hsum : start + width < 2 ^ 64 := by omega
  rw [read, usize_ok hsum, ok_bind, slice_ok (by omega) h, Nat.add_sub_cancel_left]
  rfl

theorem word_slice {f n : Nat} (h : f + width ≤ n) :
    word width ((bytes.drop start).take n) f = word width bytes (start + f) := by
  simp only [word, List.drop_take, List.drop_drop, List.take_take]
  congr 2
  omega

end Reads

/-! ### The program header table -/

namespace Bytes

variable (bytes : Bytes)

/-- What `parse` builds before it looks at the program headers. -/
def elf : Elf64 := ⟨bytes, word 8 bytes.data 24, bytes.phoff, bytes.phentsize, bytes.phnum⟩

theorem elf_bytes : bytes.elf.bytes = bytes := rfl

/-- The whole table lies inside the file. -/
structure Tabled : Prop where
  stride : 56 ≤ bytes.phentsize
  table : bytes.phoff + bytes.phnum * bytes.phentsize ≤ bytes.len

variable {bytes} {k : Nat}

theorem Tabled.entry_le (h : bytes.Tabled) (hk : k < bytes.phnum) :
    bytes.entryStart k + 56 ≤ bytes.len := by
  have hmul : (k + 1) * bytes.phentsize ≤ bytes.phnum * bytes.phentsize :=
    Nat.mul_le_mul_right _ hk
  have hs := h.stride
  have ht := h.table
  unfold entryStart
  rw [Nat.succ_mul] at hmul
  omega

theorem header_ok (h : bytes.Tabled) (hk : k < bytes.phnum) :
    bytes.elf.header k = .ok ((bytes.data.drop (bytes.entryStart k)).take 56) := by
  have he : bytes.phoff + k * bytes.phentsize + 56 ≤ bytes.data.length := h.entry_le hk
  have hf := bytes.fits
  have hmul : k * bytes.phentsize < 2 ^ 64 := by omega
  have hst : bytes.phoff + k * bytes.phentsize < 2 ^ 64 := by omega
  have hstop : bytes.phoff + k * bytes.phentsize + Phdr.size < 2 ^ 64 := by
    unfold Phdr.size
    omega
  simp only [Elf64.header, elf, usize_ok hmul, usize_ok hst, usize_ok hstop, ok_bind]
  have hs := slice_ok (Nat.le_add_right _ _) he
  rw [Nat.add_sub_cancel_left] at hs
  exact hs

theorem read_header (h : bytes.Tabled) (hk : k < bytes.phnum) {width f : Nat}
    (hf : f + width ≤ 56) :
    read width ((bytes.data.drop (bytes.entryStart k)).take 56) f =
      .ok (word width bytes.data (bytes.entryStart k + f)) := by
  have he : bytes.entryStart k + 56 ≤ bytes.data.length := h.entry_le hk
  have hl : ((bytes.data.drop (bytes.entryStart k)).take 56).length = 56 := by
    rw [List.length_take, List.length_drop]
    omega
  rw [read_ok (by omega) (by omega), word_slice hf]

/-- The words of an entry are the fields of its program header. -/
theorem entry_words (bytes : Bytes) (k : Nat) :
    word 4 bytes.data (bytes.entryStart k) = (bytes.programHeader k).type ∧
      word 4 bytes.data (bytes.entryStart k + 4) = (bytes.programHeader k).flags ∧
      word 8 bytes.data (bytes.entryStart k + 8) = (bytes.programHeader k).offset ∧
      word 8 bytes.data (bytes.entryStart k + 16) = (bytes.programHeader k).vaddr ∧
      word 8 bytes.data (bytes.entryStart k + 32) = (bytes.programHeader k).filesz ∧
      word 8 bytes.data (bytes.entryStart k + 40) = (bytes.programHeader k).memsz :=
  ⟨rfl, rfl, rfl, rfl, rfl, rfl⟩

theorem validateSegment_eq (h : bytes.Tabled) (hk : k < bytes.phnum) :
    bytes.elf.validateSegment k =
      if (bytes.programHeader k).type ≠ ptLoad then .ok ()
      else if (bytes.programHeader k).memsz < (bytes.programHeader k).filesz then
        .error (.refused .segmentTooLarge)
      else if bytes.Loadable (bytes.programHeader k) then .ok ()
      else .error (.refused .badProgramHeader) := by
  simp (disch := decide) only [Elf64.validateSegment, header_ok h hk, ok_bind, readU32, readU64,
    Phdr.type, Phdr.offset, Phdr.filesz, Phdr.memsz, Phdr.vaddr, read_header h hk, Nat.add_zero,
    entry_words]
  generalize bytes.programHeader k = ph
  have hf : bytes.len < 2 ^ 63 := bytes.fits
  by_cases ht : ph.type ≠ ptLoad
  · rw [if_pos ht, if_pos ht]
    rfl
  rw [if_neg ht, if_neg ht]
  by_cases hs : ph.filesz > ph.memsz
  · rw [refuse_of hs, if_pos hs]
  rw [refuse_of_not hs, if_neg hs]
  by_cases hend : ph.offset + ph.filesz ≤ bytes.len
  · have hin : ¬ ph.offset + ph.filesz > bytes.elf.bytes.len := Nat.not_lt.mpr hend
    rw [checked_of_lt (by omega), ok_bind, refuse_of_not hin]
    by_cases hw : ph.vaddr + ph.memsz < 2 ^ 64
    · rw [checked_of_lt hw, if_pos ⟨Nat.not_lt.mp hs, hend, hw⟩]
      rfl
    · rw [checked_bind_of_le (Nat.not_lt.mp hw), if_neg fun hl => hw hl.2.2]
  · -- the sum does not fit, or it is past the end of the file
    rw [if_neg fun hl => hend hl.2.1]
    by_cases hsum : ph.offset + ph.filesz < 2 ^ 64
    · have hout : ph.offset + ph.filesz > bytes.elf.bytes.len := Nat.not_le.mp hend
      rw [checked_of_lt hsum, ok_bind, refuse_of hout]
    · rw [checked_bind_of_le (Nat.not_lt.mp hsum)]

/-- An entry passes iff it is not loaded or is loadable, and no check panics. -/
theorem validateSegment_spec (h : bytes.Tabled) (hk : k < bytes.phnum) :
    (bytes.elf.validateSegment k = .ok () ↔
      ((bytes.programHeader k).type = ptLoad → bytes.Loadable (bytes.programHeader k))) ∧
    ∀ p, bytes.elf.validateSegment k ≠ .error (.panic p) := by
  rw [validateSegment_eq h hk]
  split_ifs with ht hs hl
  · simp [ht]
  · have hnot : ¬ bytes.Loadable (bytes.programHeader k) := fun hl =>
      Nat.not_le.mpr hs hl.1
    simp_all
  · simp_all
  · simp_all

theorem flag_eq_testBit (flags i : Nat) : (flags &&& 2 ^ i != 0) = flags.testBit i := by
  rw [Nat.and_two_pow]
  cases flags.testBit i <;> simp

theorem segment_eq (h : bytes.Tabled) (hk : k < bytes.phnum)
    (hl : (bytes.programHeader k).type = ptLoad → bytes.Loadable (bytes.programHeader k)) :
    bytes.elf.segment k = .ok (bytes.segmentOf (bytes.programHeader k)) := by
  simp (disch := decide) only [Elf64.segment, header_ok h hk, ok_bind, readU32, readU64,
    Phdr.type, Phdr.flags, Phdr.offset, Phdr.filesz, Phdr.memsz, Phdr.vaddr, read_header h hk,
    Nat.add_zero, entry_words, elf_bytes]
  generalize bytes.programHeader k = ph at hl ⊢
  have hf : bytes.len < 2 ^ 63 := bytes.fits
  by_cases ht : ph.type = ptLoad
  · obtain ⟨-, hend, -⟩ := hl ht
    have hs := slice_ok (Nat.le_add_right ph.offset ph.filesz) hend
    rw [Nat.add_sub_cancel_left] at hs
    rw [if_neg (not_not.mpr ht), usize_ok (by omega), ok_bind, hs, segmentOf, if_pos ht, ←
      flag_eq_testBit ph.flags 1, ← flag_eq_testBit ph.flags 0]
    rfl
  · rw [if_pos ht, segmentOf, if_neg ht]
    rfl

end Bytes

/-! ### The whole parse -/

/-- The computation is refused where `P` fails, and is `r` where it holds. -/
def Decides {α : Type} (P : Prop) (m r : Except Failure α) : Prop :=
  (¬ P ∧ ∃ e, m = .error (.refused e)) ∨ (P ∧ m = r)

namespace Decides

variable {α : Type} {P c : Prop} [Decidable c] {r : Except Failure α}

theorem refuse {e : ElfError} {f : Unit → Except Failure α} (hc : c → ¬ P)
    (h : ¬ c → Decides P (f ()) r) : Decides P (refuseIf c e >>= f) r := by
  by_cases hca : c
  · rw [refuse_of hca]
    exact .inl ⟨hc hca, e, rfl⟩
  · rw [refuse_of_not hca]
    exact h hca

theorem check {v : Nat} {f : Nat → Except Failure α} (hv : 2 ^ 64 ≤ v → ¬ P)
    (h : v < 2 ^ 64 → Decides P (f v) r) : Decides P (checked v >>= f) r := by
  by_cases hc : v < 2 ^ 64
  · rw [checked_of_lt hc]
    exact h hc
  · rw [checked_bind_of_le (Nat.not_lt.mp hc)]
    exact .inl ⟨hv (Nat.not_lt.mp hc), _, rfl⟩

end Decides

namespace Bytes

variable {bytes : Bytes}

/-- What is checked before the program headers. -/
structure Headed (bytes : Bytes) : Prop where
  header : 64 ≤ bytes.len
  identified : bytes.Identified
  tabled : bytes.Tabled

theorem parse_header (bytes : Bytes) : Decides bytes.Headed (parse bytes) (do
    (List.range bytes.phnum).forM bytes.elf.validateSegment
    return bytes.elf) := by
  have hf := bytes.fits
  apply Decides.refuse (fun hs h => Nat.not_le.mpr hs h.header)
  intro hs
  have hlen : 64 ≤ bytes.data.length := Nat.not_lt.mp hs
  -- every read of the header succeeds
  have hr : ∀ width start, start + width ≤ 64 →
      read width bytes.data start = .ok (word width bytes.data start) :=
    fun width start h => read_ok (by omega) (by omega)
  have hmagic : slice bytes.data 0 4 = .ok (bytes.data.take 4) := slice_ok (by omega) (by omega)
  have hin : ∀ i, i < 64 → ∃ byte, bytes.data[i]? = some byte ∧ index bytes.data i = .ok byte :=
    fun i hi => ⟨bytes.data[i], by simp, index_ok (by omega)⟩
  obtain ⟨b₄, hb₄, hi₄⟩ := hin 4 (by decide)
  obtain ⟨b₅, hb₅, hi₅⟩ := hin 5 (by decide)
  obtain ⟨b₆, hb₆, hi₆⟩ := hin 6 (by decide)
  simp (disch := decide) only [hmagic, hi₄, hi₅, hi₆, ok_bind, readU16, readU64, Ehdr.machine,
    Ehdr.type, Ehdr.entry, Ehdr.phoff, Ehdr.phentsize, Ehdr.phnum, hr]
  apply Decides.refuse (fun hne h => hne h.identified.magic)
  intro hm
  apply Decides.refuse (fun hne h => hne (Option.some.inj (hb₄.symm.trans h.identified.elf64)))
  intro h₄
  apply Decides.refuse (fun hne h =>
    hne (Option.some.inj (hb₅.symm.trans h.identified.littleEndian)))
  intro h₅
  apply Decides.refuse (fun hne h => hne (Option.some.inj (hb₆.symm.trans h.identified.version)))
  intro h₆
  apply Decides.refuse (fun hne h => hne h.identified.machine)
  intro hma
  apply Decides.refuse (fun hne h => hne h.identified.type)
  intro hty
  apply Decides.refuse (fun hlt h => Nat.not_le.mpr hlt h.tabled.stride)
  intro hst
  -- a table whose end does not fit does not lie in the file
  have hend : bytes.Headed → word 8 bytes.data 32 + word 2 bytes.data 56 * word 2 bytes.data 54 ≤
      bytes.data.length := fun h => h.tabled.table
  apply Decides.check
  · intro hbig h
    have := hend h
    omega
  intro _
  apply Decides.check
  · intro hbig h
    have := hend h
    omega
  intro _
  apply Decides.refuse (fun hgt h => Nat.not_le.mpr hgt h.tabled.table)
  intro ht
  refine .inr ⟨⟨hlen, ?_, ⟨Nat.not_lt.mp hst, Nat.not_lt.mp ht⟩⟩, rfl⟩
  exact ⟨not_not.mp hm, hb₄.trans (congrArg some (not_not.mp h₄)),
    hb₅.trans (congrArg some (not_not.mp h₅)), hb₆.trans (congrArg some (not_not.mp h₆)),
    not_not.mp hma, not_not.mp hty⟩

theorem wellFormed_iff : bytes.WellFormed ↔ bytes.Headed ∧
    ∀ k < bytes.phnum, (bytes.programHeader k).type = ptLoad →
      bytes.Loadable (bytes.programHeader k) := by
  constructor
  · intro h
    exact ⟨⟨h.header, h.identified, ⟨h.stride, h.table⟩⟩, h.loadable⟩
  · rintro ⟨h, hl⟩
    exact ⟨h.header, h.identified, h.tabled.stride, h.tabled.table, hl⟩

/-- The program headers pass iff each does, and their checks do not panic. -/
theorem validate_all (h : bytes.Tabled) :
    ((List.range bytes.phnum).forM bytes.elf.validateSegment = .ok () ↔
      ∀ k < bytes.phnum, (bytes.programHeader k).type = ptLoad →
        bytes.Loadable (bytes.programHeader k)) ∧
    ∀ p, (List.range bytes.phnum).forM bytes.elf.validateSegment ≠ .error (.panic p) := by
  constructor
  · rw [forM_eq_ok]
    constructor
    · intro hall k hk
      exact (validateSegment_spec h hk).1.mp (hall k (List.mem_range.mpr hk))
    · intro hall k hk
      have hk := List.mem_range.mp hk
      exact (validateSegment_spec h hk).1.mpr (hall k hk)
  · intro p hp
    obtain ⟨k, hk, hp⟩ := exists_of_forM_eq_error hp
    exact (validateSegment_spec h (List.mem_range.mp hk)).2 p hp

theorem parse_spec (bytes : Bytes) :
    (bytes.WellFormed ∧ parse bytes = .ok bytes.elf) ∨
      (¬ bytes.WellFormed ∧ ∃ e, parse bytes = .error (.refused e)) := by
  rw [wellFormed_iff]
  rcases parse_header bytes with ⟨hnot, hr⟩ | ⟨h, hp⟩
  · exact .inr ⟨fun hw => hnot hw.1, hr⟩
  · obtain ⟨hok, hpa⟩ := validate_all h.tabled
    rw [hp]
    cases hl : (List.range bytes.phnum).forM bytes.elf.validateSegment with
    | ok => exact .inl ⟨⟨h, hok.mp hl⟩, rfl⟩
    | error failure =>
      have hnot : ¬ ∀ k < bytes.phnum, (bytes.programHeader k).type = ptLoad →
          bytes.Loadable (bytes.programHeader k) := by
        intro hall
        rw [hok.mpr hall] at hl
        cases hl
      cases failure with
      | refused e => exact .inr ⟨fun hw => hnot hw.2, e, rfl⟩
      | panic p => exact absurd hl (hpa p)

theorem segments_eq (h : bytes.WellFormed) : bytes.elf.segments =
    .ok ((List.range bytes.phnum).filterMap fun k => bytes.segmentOf (bytes.programHeader k)) := by
  apply filterMapM_eq_ok
  intro k hk
  have hk := List.mem_range.mp hk
  exact segment_eq ⟨h.stride, h.table⟩ hk (h.loadable k hk)

end Bytes

/-- Parsing does not panic, succeeds on the well-formed files and no others, and then
the segments are those of the `PT_LOAD` entries, in the order of the table. -/
theorem parse_exact (bytes : Bytes) :
    (∀ p, parse bytes ≠ .error (.panic p)) ∧
    ((∃ elf, parse bytes = .ok elf) ↔ bytes.WellFormed) ∧
    ∀ elf, parse bytes = .ok elf → elf.segments =
      .ok ((List.range bytes.phnum).filterMap fun k =>
        bytes.segmentOf (bytes.programHeader k)) := by
  rcases bytes.parse_spec with ⟨hw, hparse⟩ | ⟨hw, e, hparse⟩
  · rw [hparse]
    refine ⟨fun p hp => (nomatch hp), ⟨fun _ => hw, fun _ => ⟨_, rfl⟩⟩, ?_⟩
    rintro elf ⟨⟩
    exact Bytes.segments_eq hw
  · rw [hparse]
    refine ⟨fun p hp => (nomatch hp), ⟨?_, fun h => absurd h hw⟩, fun elf hp => (nomatch hp)⟩
    rintro ⟨elf, hp⟩
    cases hp

/-- One `PT_LOAD` entry: four bytes of file at 0x400000, eight of memory, executable. -/
def Bytes.minimal : Bytes where
  data := elfMagic ++ [2, 1, 1] ++ List.replicate 9 0 ++ toLE 2 2 ++ toLE 2 62 ++ toLE 4 1 ++
    toLE 8 0x400000 ++ toLE 8 64 ++ toLE 8 0 ++ toLE 4 0 ++ toLE 2 64 ++ toLE 2 56 ++ toLE 2 1 ++
    List.replicate 6 0 ++
    (toLE 4 1 ++ toLE 4 5 ++ toLE 8 120 ++ toLE 8 0x400000 ++ toLE 8 0 ++ toLE 8 4 ++ toLE 8 8 ++
      toLE 8 4096) ++
    [0xf4, 0xeb, 0xfd, 0x90]
  fits := by decide +kernel

theorem parse_exact_minimal : (∃ elf, parse .minimal = .ok elf) ∧ Bytes.minimal.WellFormed ∧
    ∀ elf, parse .minimal = .ok elf →
      elf.segments = .ok [⟨0x400000, 8, [0xf4, 0xeb, 0xfd, 0x90], false, true⟩] := by
  have hok : ∃ elf, parse .minimal = .ok elf := by
    have hsome : (parse .minimal).toOption.isSome = true := by decide +kernel
    obtain ⟨elf, helf⟩ := Option.isSome_iff_exists.mp hsome
    exact ⟨elf, ok_of_toOption helf⟩
  obtain ⟨-, hiff, hsegments⟩ := parse_exact .minimal
  refine ⟨hok, hiff.mp hok, ?_⟩
  intro elf helf
  rw [hsegments elf helf]
  decide +kernel

end Qunix.Elf
