/-
Byte-addressed memory.

A memory gives the byte at each address. `writeBytes` overwrites a range with a list of
bytes and `readBytes` reads a range back; `toLE` and `ofLE` are the little-endian
encoding of a number in a fixed number of bytes and its inverse. A read that does
not meet the range of a store does not see it.

A `Transfer` is a copy to an address, made by one store or byte by byte; the
memory in the middle of a list of transfers is that after some of their stores.
-/

import Mathlib.Data.List.Basic
import Mathlib.Tactic.Ring

namespace Qunix.Lib

/-! ### Ranges -/

/-- The bytes from `a` on, overwritten. -/
def writeBytes (m : Nat → UInt8) (a : Nat) (bytes : List UInt8) : Nat → UInt8 :=
  fun x => if a ≤ x then (bytes[x - a]?).getD (m x) else m x

/-- The `n` bytes from `a` on. -/
def readBytes (m : Nat → UInt8) (a n : Nat) : List UInt8 := (List.range n).map fun i => m (a + i)

/-- Two ranges without a byte in common. -/
def Separate (a n b k : Nat) : Prop := a + n ≤ b ∨ b + k ≤ a

instance (a n b k : Nat) : Decidable (Separate a n b k) := inferInstanceAs (Decidable (_ ∨ _))

variable {k i : Nat}

theorem Separate.symm (h : Separate a n b k) : Separate b k a n := Or.symm h

theorem Separate.mono {a' n' b' k' : Nat} (h : Separate a n b k) (ha : a ≤ a')
    (hn : a' + n' ≤ a + n) (hb : b ≤ b') (hk : b' + k' ≤ b + k) : Separate a' n' b' k' := by
  unfold Separate at *
  omega

variable {m m' : Nat → UInt8} {a b n x v : Nat} {bytes : List UInt8}

theorem writeBytes_of_outside (h : x < a ∨ a + bytes.length ≤ x) :
    writeBytes m a bytes x = m x := by
  unfold writeBytes
  split
  · rw [List.getElem?_eq_none (by omega)]
    rfl
  · rfl

theorem writeBytes_of_lt (hi : i < bytes.length) : writeBytes m a bytes (a + i) = bytes[i] := by
  simp [writeBytes, hi]

@[simp] theorem length_readBytes : (readBytes m a n).length = n := by simp [readBytes]

theorem readBytes_congr (h : ∀ i < n, m' (a + i) = m (a + i)) :
    readBytes m' a n = readBytes m a n :=
  List.map_congr_left fun i hi => h i (List.mem_range.mp hi)

theorem readBytes_writeBytes (hn : bytes.length = n) :
    readBytes (writeBytes m a bytes) a n = bytes := by
  subst hn
  refine List.ext_getElem length_readBytes fun i hi hi' => ?_
  simp only [readBytes, List.getElem_map, List.getElem_range]
  exact writeBytes_of_lt hi'

theorem readBytes_writeBytes_of_separate (h : Separate a n b bytes.length) :
    readBytes (writeBytes m b bytes) a n = readBytes m a n := by
  refine readBytes_congr fun i hi => writeBytes_of_outside ?_
  unfold Separate at h
  omega

theorem readBytes_writeBytes_replicate (byte : UInt8) (h : i + n ≤ k) :
    readBytes (writeBytes m a (List.replicate k byte)) (a + i) n = List.replicate n byte := by
  refine List.ext_getElem (by simp) fun j hj _ => ?_
  rw [length_readBytes] at hj
  simp only [readBytes, List.getElem_map, List.getElem_range, List.getElem_replicate, Nat.add_assoc]
  rw [writeBytes_of_lt (by rw [List.length_replicate]; omega), List.getElem_replicate]

theorem readBytes_append (m : Nat → UInt8) (a n k : Nat) :
    readBytes m a (n + k) = readBytes m a n ++ readBytes m (a + n) k := by
  simp [readBytes, List.range_add, Nat.add_assoc]

theorem readBytes_eq_append {l l' : List UInt8} (hn : l.length = n)
    (h : readBytes m a (n + k) = l ++ l') : readBytes m a n = l ∧ readBytes m (a + n) k = l' := by
  rw [readBytes_append] at h
  exact List.append_inj h (by rw [length_readBytes, hn])

/-! ### Little-endian words -/

def toLE : Nat → Nat → List UInt8
  | 0, _ => []
  | n + 1, v => UInt8.ofNat v :: toLE n (v / 256)

def ofLE : List UInt8 → Nat
  | [] => 0
  | byte :: bytes => byte.toNat + 256 * ofLE bytes

@[simp] theorem length_toLE : (toLE n v).length = n := by
  induction n generalizing v with
  | zero => rfl
  | succ n ih => simp [toLE, ih]

theorem ofLE_toLE (h : v < 256 ^ n) : ofLE (toLE n v) = v := by
  induction n generalizing v with
  | zero => simp_all [toLE, ofLE]
  | succ n ih =>
    have hr : v / 256 < 256 ^ n := by
      rw [Nat.div_lt_iff_lt_mul (by decide)]
      exact h
    have hb : (UInt8.ofNat v).toNat = v % 256 := UInt8.toNat_ofNat'
    rw [toLE, ofLE, ih hr, hb]
    omega

/-- The word of `n` bytes at `a`. -/
def readLE (m : Nat → UInt8) (a n : Nat) : Nat := ofLE (readBytes m a n)

theorem readLE_writeBytes (h : v < 256 ^ n) : readLE (writeBytes m a (toLE n v)) a n = v := by
  rw [readLE, readBytes_writeBytes length_toLE, ofLE_toLE h]

theorem readLE_writeBytes_of_separate (h : Separate a n b bytes.length) :
    readLE (writeBytes m b bytes) a n = readLE m a n := by
  rw [readLE, readBytes_writeBytes_of_separate h, readLE]

theorem readLE_of_readBytes (h : v < 256 ^ n) (hr : readBytes m a n = toLE n v) :
    readLE m a n = v := by
  rw [readLE, hr, ofLE_toLE h]

/-! ### Sequences of stores -/

structure Write where
  addr : Nat
  bytes : List UInt8

/-- The memory after a list of stores. -/
def written (m : Nat → UInt8) (ws : List Write) : Nat → UInt8 :=
  ws.foldl (fun m w => writeBytes m w.addr w.bytes) m

/-- One store for each byte. -/
def bytewise : Nat → List UInt8 → List Write
  | _, [] => []
  | a, byte :: bytes => ⟨a, [byte]⟩ :: bytewise (a + 1) bytes

/-- A copy of bytes to an address, by a single store or byte by byte. -/
structure Transfer where
  addr : Nat
  bytes : List UInt8
  single : Bool

def Transfer.writes (t : Transfer) : List Write :=
  if t.single then [⟨t.addr, t.bytes⟩] else bytewise t.addr t.bytes

variable {ws : List Write} {t : Transfer} {ts : List Transfer}

theorem written_append (ws' : List Write) :
    written m (ws ++ ws') = written (written m ws) ws' := List.foldl_append

theorem writeBytes_cons (byte : UInt8) :
    writeBytes m a (byte :: bytes) = writeBytes (writeBytes m a [byte]) (a + 1) bytes := by
  funext x
  by_cases hx : a + 1 ≤ x
  · have hsub : x - a = x - (a + 1) + 1 := by omega
    simp [writeBytes, hx, show a ≤ x by omega, hsub]
  · have hout : writeBytes (writeBytes m a [byte]) (a + 1) bytes x = writeBytes m a [byte] x :=
      writeBytes_of_outside (by omega)
    rw [hout]
    unfold writeBytes
    by_cases hax : a ≤ x
    · obtain rfl : x = a := by omega
      simp
    · simp [hax]

theorem writeBytes_append (l l' : List UInt8) :
    writeBytes m a (l ++ l') = writeBytes (writeBytes m a l) (a + l.length) l' := by
  induction l generalizing m a with
  | nil =>
    congr 1
    funext x
    exact (writeBytes_of_outside (by simp; omega)).symm
  | cons byte l ih =>
    have hlen : a + (byte :: l).length = a + 1 + l.length := by
      rw [List.length_cons]
      omega
    rw [List.cons_append, writeBytes_cons, ih, ← writeBytes_cons, hlen]

theorem written_bytewise : written m (bytewise a bytes) = writeBytes m a bytes := by
  induction bytes generalizing m a with
  | nil =>
    funext x
    exact (writeBytes_of_outside (by simp; omega)).symm
  | cons byte bytes ih =>
    rw [writeBytes_cons, ← ih]
    rfl

theorem written_writes (t : Transfer) : written m t.writes = writeBytes m t.addr t.bytes := by
  unfold Transfer.writes
  split
  · rfl
  · exact written_bytewise

theorem mem_writes {w : Write} (hw : w ∈ t.writes) :
    t.addr ≤ w.addr ∧ w.addr + w.bytes.length ≤ t.addr + t.bytes.length := by
  have hb : ∀ (bytes : List UInt8) (a : Nat), w ∈ bytewise a bytes →
      a ≤ w.addr ∧ w.addr + w.bytes.length ≤ a + bytes.length := by
    intro bytes
    induction bytes with
    | nil => exact fun a hw => nomatch hw
    | cons byte bytes ih =>
      intro a hw
      rcases List.mem_cons.mp hw with rfl | hw
      · simp
      · have := ih (a + 1) hw
        simp only [List.length_cons]
        omega
  unfold Transfer.writes at hw
  split at hw
  · obtain rfl := List.mem_singleton.mp hw
    exact ⟨le_rfl, le_rfl⟩
  · exact hb _ _ hw

theorem written_of_outside (h : ∀ w ∈ ws, x < w.addr ∨ w.addr + w.bytes.length ≤ x) :
    written m ws x = m x := by
  induction ws generalizing m with
  | nil => rfl
  | cons w ws ih =>
    calc written m (w :: ws) x
        = writeBytes m w.addr w.bytes x := ih fun w' hw' => h w' (List.mem_cons_of_mem _ hw')
      _ = m x := writeBytes_of_outside (h w List.mem_cons_self)

theorem readBytes_written_of_separate
    (h : ∀ w ∈ ws, Separate a n w.addr w.bytes.length) :
    readBytes (written m ws) a n = readBytes m a n := by
  induction ws generalizing m with
  | nil => rfl
  | cons w ws ih =>
    calc readBytes (written m (w :: ws)) a n
        = readBytes (writeBytes m w.addr w.bytes) a n :=
          ih fun w' hw' => h w' (List.mem_cons_of_mem _ hw')
      _ = readBytes m a n := readBytes_writeBytes_of_separate (h w List.mem_cons_self)

/-- The stores after a byte was set matter the same to every memory. -/
theorem written_congr (h : m' x = m x) : written m' ws x = written m ws x := by
  induction ws generalizing m m' with
  | nil => exact h
  | cons w ws ih =>
    refine ih ?_
    simp [writeBytes, h]

theorem readBytes_transfers
    (hsep : ts.Pairwise fun t u => Separate t.addr t.bytes.length u.addr u.bytes.length)
    (ht : t ∈ ts) : readBytes (written m (ts.flatMap Transfer.writes)) t.addr t.bytes.length
      = t.bytes := by
  induction ts generalizing m with
  | nil => cases ht
  | cons u ts ih =>
    obtain ⟨hu, hr⟩ := List.pairwise_cons.mp hsep
    rw [List.flatMap_cons, written_append, written_writes]
    rcases List.mem_cons.mp ht with rfl | ht
    · rw [readBytes_written_of_separate, readBytes_writeBytes rfl]
      intro w hw
      obtain ⟨u, hmem, hw⟩ := List.mem_flatMap.mp hw
      obtain ⟨hlo, hhi⟩ := mem_writes hw
      exact (hu u hmem).mono (le_rfl) (le_rfl) hlo hhi
    · exact ih hr ht

end Qunix.Lib
