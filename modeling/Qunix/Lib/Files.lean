/-
Files by path.

Creating a file empties the one that is there, or makes a new one. A writer goes on
writing to the file it created, at an offset of its own: bytes that another writer has
put there are overwritten, and after the path was removed or made anew the writer
changes nothing that can be found. What an operation does to one path says nothing
about the others.
-/

import Mathlib.Logic.Function.Basic

namespace Qunix.Lib

open Function

/-- A file: which one it is, and what it holds. -/
structure File where
  id : Nat
  bytes : List UInt8

structure Files (Path : Type) where
  find : Path → Option File
  fresh : Nat
  /-- A new file is none of those there are. -/
  lt_fresh : ∀ p f, find p = some f → f.id < fresh

/-- What a file holds after a write at an offset; a gap before it reads as zeros. -/
def overwrite (old : List UInt8) (offset : Nat) (data : List UInt8) : List UInt8 :=
  old.take offset ++ List.replicate (offset - old.length) 0 ++ data ++
    old.drop (offset + data.length)

theorem overwrite_length (old data : List UInt8) : overwrite old old.length data = old ++ data := by
  simp [overwrite]

namespace Files

variable {Path : Type} [DecidableEq Path]

def set (fs : Files Path) (p : Path) (f : Option File) (h : ∀ g, f = some g → g.id < fs.fresh) :
    Files Path where
  find := update fs.find p f
  fresh := fs.fresh
  lt_fresh := by
    intro q g hg
    by_cases hq : q = p
    · subst hq
      rw [update_self] at hg
      exact h g hg
    · rw [update_of_ne hq] at hg
      exact fs.lt_fresh q g hg

/-- A new file at the path, in place of the one that was there. -/
def put (fs : Files Path) (p : Path) (bytes : List UInt8) : Files Path where
  find := update fs.find p (some ⟨fs.fresh, bytes⟩)
  fresh := fs.fresh + 1
  lt_fresh := by
    intro q g hg
    by_cases hq : q = p
    · subst hq
      rw [update_self] at hg
      cases hg
      exact Nat.lt_succ_self _
    · rw [update_of_ne hq] at hg
      exact Nat.lt_succ_of_lt (fs.lt_fresh q g hg)

def remove (fs : Files Path) (p : Path) : Files Path := fs.set p none fun _ h => nomatch h

/-- The file's identity, with which its writer comes back. -/
def create (fs : Files Path) (p : Path) : Nat × Files Path :=
  match h : fs.find p with
  | some f => (f.id, fs.set p (some ⟨f.id, []⟩) (by rintro _ ⟨⟩; exact fs.lt_fresh p f h))
  | none => (fs.fresh, fs.put p [])

def writeAt (fs : Files Path) (p : Path) (id offset : Nat) (data : List UInt8) : Files Path :=
  match h : fs.find p with
  | some f =>
    if f.id = id then
      fs.set p (some ⟨f.id, overwrite f.bytes offset data⟩)
        (by rintro _ ⟨⟩; exact fs.lt_fresh p f h)
    else fs
  | none => fs

variable {fs : Files Path} {p q : Path} {id offset : Nat} {data : List UInt8}

theorem find_put_of_ne (h : q ≠ p) (bytes : List UInt8) : (fs.put p bytes).find q = fs.find q :=
  update_of_ne h _ _

theorem find_remove_of_ne (h : q ≠ p) : (fs.remove p).find q = fs.find q := update_of_ne h _ _

theorem find_create_self : (fs.create p).2.find p = some ⟨(fs.create p).1, []⟩ := by
  unfold create
  split
  · exact update_self ..
  · exact update_self ..

theorem find_create_of_ne (h : q ≠ p) : (fs.create p).2.find q = fs.find q := by
  unfold create
  split
  · exact update_of_ne h _ _
  · exact update_of_ne h _ _

theorem find_writeAt_self {old : List UInt8} (h : fs.find p = some ⟨id, old⟩) :
    (fs.writeAt p id old.length data).find p = some ⟨id, old ++ data⟩ := by
  unfold writeAt
  split
  · rename_i f hf
    obtain rfl := Option.mem_unique h hf
    rw [if_pos rfl, ← overwrite_length]
    exact update_self ..
  · rename_i hn
    rw [h] at hn
    cases hn

theorem find_writeAt_of_ne (h : q ≠ p) : (fs.writeAt p id offset data).find q = fs.find q := by
  unfold writeAt
  split
  · split
    · exact update_of_ne h _ _
    · rfl
  · rfl

end Files

end Qunix.Lib
