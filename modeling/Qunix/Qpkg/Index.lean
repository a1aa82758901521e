/-
The package index (`qpkg/src/index.rs`, `ingest` of `qpkg/src/sync.rs`, `outdated` of
`qpkg/src/build.rs`).

The tables are maps, and a transaction changes one of them or nothing. `ingest` parses the
three payloads and lands all their records at once, by inserting them; it never takes a record
out. So a name stays in the index after the repositories have dropped it, and the index is a
mirror of a sync only if the sync carries every name that landed before.
-/

import Qunix.Lib.OrderedMap
import Qunix.Qpkg.Sources
import Qunix.Qpkg.VersionOrder

namespace Qunix.Qpkg

open Function Qunix.Lib
open Qunix.Qpkg.Sources (Error)

structure PackageRecord (Name : Type) where
  name : Name
  version : List UInt8
deriving DecidableEq

structure BuiltRecord (Name : Type) where
  name : Name
  versionBuilt : List UInt8

/-- What has a sync time of its own. -/
inductive Upstream where
  | official
  | aur
deriving DecidableEq

structure Index (Name : Type) [LinearOrder Name] where
  packages : Name → Option (PackageRecord Name)
  built : OrderedMap Name (BuiltRecord Name)
  syncTime : Upstream → Option Nat

structure SyncReport where
  official : Nat
  aur : Nat

section Index

variable {Name : Type} [LinearOrder Name]

namespace Index

def empty : Index Name := ⟨fun _ => none, .empty, fun _ => none⟩

/-- A write transaction, which lands or fails as a whole. -/
def transact (fault : Option Error) (f : Index Name → Index Name) :
    Attempt (Index Name) Error Unit :=
  match fault with
  | some e => .fail e
  | none => .modify f

def insertAll (ix : Index Name) (records : List (PackageRecord Name)) : Index Name :=
  { ix with
      packages := records.foldl (fun table rec => update table rec.name (some rec)) ix.packages }

def upsertPackages (records : List (PackageRecord Name)) (fault : Option Error) :
    Attempt (Index Name) Error Unit :=
  transact fault fun ix => ix.insertAll records

def setSyncTime (source : Upstream) (unix : Nat) (fault : Option Error) :
    Attempt (Index Name) Error Unit :=
  transact fault fun ix => { ix with syncTime := update ix.syncTime source (some unix) }

def recordBuilt (rec : BuiltRecord Name) (fault : Option Error) : Attempt (Index Name) Error Unit :=
  transact fault fun ix => { ix with built := ix.built.upsert rec.name fun _ => rec }

def get (ix : Index Name) (name : Name) : Option (PackageRecord Name) := ix.packages name

def builtWithUpstream (ix : Index Name) : List (BuiltRecord Name × Option (PackageRecord Name)) :=
  ix.built.entries.map fun (_, rec) => (rec, ix.get rec.name)

/-- The names of the report. -/
def outdated (ix : Index Name) : List Name :=
  ix.builtWithUpstream.filterMap fun (built, upstream) =>
    match upstream with
    | none => none
    | some rec =>
      if vercmp rec.version built.versionBuilt = some .gt then some built.name else none

/-- Payloads are given by what the parsers make of them; a fault is why a transaction does not
land. -/
def ingest (core extra aur : Except Error (List (PackageRecord Name))) (now : Nat)
    (faults : Fin 3 → Option Error) : Attempt (Index Name) Error SyncReport := do
  let core ← .lift core
  let extra ← .lift extra
  let official := core ++ extra
  let aur ← .lift aur
  upsertPackages (official ++ aur) (faults 0)
  setSyncTime .official now (faults 1)
  setSyncTime .aur now (faults 2)
  return ⟨official.length, aur.length⟩

/-! ### Histories -/

inductive Act (Name : Type) where
  | ingest (core extra aur : Except Error (List (PackageRecord Name))) (now : Nat)
      (faults : Fin 3 → Option Error)
  | recordBuilt (rec : BuiltRecord Name) (fault : Option Error)

def apply (ix : Index Name) : Act Name → Index Name
  | .ingest core extra aur now faults => (ingest core extra aur now faults ix).2
  | .recordBuilt rec fault => (recordBuilt rec fault ix).2

/-- What a call inserts, also where it fails afterwards. -/
def Act.landed : Act Name → List (PackageRecord Name)
  | .ingest (.ok core) (.ok extra) (.ok aur) _ faults =>
    if (faults 0).isNone then core ++ extra ++ aur else []
  | _ => []

/-- The index has what a sync carried and nothing else. -/
structure Mirrors (all : List (PackageRecord Name)) (ix : Index Name) : Prop where
  get : ∀ name, (ix.get name).isSome ↔ ∃ rec ∈ all, rec.name = name
  record : ∀ name rec, ix.get name = some rec → rec ∈ all ∧ rec.name = name
  outdated : ∀ name, name ∈ ix.outdated ↔ ∃ built ∈ ix.built.entries.map Prod.snd,
    built.name = name ∧ ∃ rec ∈ all, ix.get name = some rec ∧
      vercmp rec.version built.versionBuilt = some .gt

variable {ix : Index Name} {name : Name}

theorem insertAll_packages (records : List (PackageRecord Name)) :
    (ix.insertAll records).packages name =
      (records.reverse.find? (·.name = name)).or (ix.packages name) := by
  unfold insertAll
  generalize ix.packages = table
  induction records generalizing table with
  | nil => rfl
  | cons rec records ih =>
    rw [List.foldl_cons, ih, List.reverse_cons, List.find?_append, Option.or_assoc]
    by_cases hn : rec.name = name
    · simp [hn]
    · simp [hn, update_of_ne (Ne.symm hn)]

theorem isSome_insertAll (records : List (PackageRecord Name)) :
    ((ix.insertAll records).packages name).isSome ↔
      (∃ rec ∈ records, rec.name = name) ∨ (ix.packages name).isSome := by
  simp [insertAll_packages]

theorem apply_packages (a : Act Name) :
    (ix.apply a).packages = (ix.insertAll a.landed).packages := by
  cases a with
  | recordBuilt rec fault => cases fault <;> rfl
  | ingest core extra aur now faults =>
    cases core with
    | error => rfl
    | ok core =>
      cases extra with
      | error => rfl
      | ok extra =>
        cases aur with
        | error => rfl
        | ok aur =>
          cases h : faults 0 with
          | some e => simp only [apply, ingest, Act.landed, h]; rfl
          | none =>
            simp only [apply, ingest, Act.landed, h]
            -- the stamps do not touch the table
            cases faults 1 <;> cases faults 2 <;> rfl

theorem isSome_history (acts : List (Act Name)) :
    ((acts.foldl apply ix).packages name).isSome ↔
      (∃ rec ∈ acts.flatMap Act.landed, rec.name = name) ∨ (ix.packages name).isSome := by
  induction acts generalizing ix with
  | nil => simp
  | cons a acts ih =>
    rw [List.foldl_cons, ih, apply_packages, isSome_insertAll, ← or_assoc]
    simp only [List.flatMap_cons, List.mem_append, or_and_right, exists_or, or_comm]

theorem mem_outdated : name ∈ ix.outdated ↔ ∃ built ∈ ix.built.entries.map Prod.snd,
    built.name = name ∧ ∃ rec, ix.get name = some rec ∧
      vercmp rec.version built.versionBuilt = some .gt := by
  simp only [outdated, builtWithUpstream, List.mem_filterMap, List.mem_map, Prod.exists]
  constructor
  · rintro ⟨_, _, ⟨key, b, hmem, heq⟩, hout⟩
    obtain ⟨rfl, rfl⟩ := Prod.mk.inj heq
    cases hget : ix.get b.name with
    | none => simp [hget] at hout
    | some rec =>
      simp only [hget, Option.ite_none_right_eq_some, Option.some.injEq] at hout
      obtain ⟨hgt, rfl⟩ := hout
      exact ⟨b, ⟨key, b, hmem, rfl⟩, rfl, rec, hget, hgt⟩
  · rintro ⟨_, ⟨key, b, hmem, rfl⟩, rfl, rec, hget, hgt⟩
    exact ⟨b, some rec, ⟨key, b, hmem, by rw [hget]⟩, by simp [hgt]⟩

theorem builds_packages (builds : List (BuiltRecord Name × Option Error)) :
    (builds.foldl (fun ix b => ix.apply (.recordBuilt b.1 b.2)) ix).packages = ix.packages := by
  induction builds generalizing ix with
  | nil => rfl
  | cons b builds ih =>
    rw [List.foldl_cons, ih, apply_packages]
    rfl

/-- After any history, a sync that succeeds is mirrored, until the next one and whatever is
built meanwhile, if and only if it carries every name that landed before. -/
theorem index_mirrors_iff (acts : List (Act Name)) {core extra aur : List (PackageRecord Name)}
    {now : Nat} {faults : Fin 3 → Option Error} {report : SyncReport} {ix' : Index Name}
    (h : ingest (.ok core) (.ok extra) (.ok aur) now faults (acts.foldl apply empty) =
      (.ok report, ix')) :
    (∀ builds : List (BuiltRecord Name × Option Error),
      Mirrors (core ++ extra ++ aur)
        (builds.foldl (fun ix b => ix.apply (.recordBuilt b.1 b.2)) ix')) ↔
      ∀ rec ∈ acts.flatMap Act.landed, ∃ rec' ∈ core ++ extra ++ aur, rec'.name = rec.name := by
  have hp : ix'.packages =
      ((acts.foldl apply empty).insertAll (core ++ extra ++ aur)).packages := by
    have hix : (acts.foldl apply empty).apply
        (.ingest (.ok core) (.ok extra) (.ok aur) now faults) =
        ix' := congrArg Prod.snd h
    rw [← hix, apply_packages, Act.landed]
    cases h0 : faults 0 with
    | none => rfl
    | some e =>
      simp only [ingest, h0] at h
      cases h
  have hs : ∀ name, (ix'.packages name).isSome ↔
      (∃ rec ∈ core ++ extra ++ aur, rec.name = name) ∨
        ∃ rec ∈ acts.flatMap Act.landed, rec.name = name := by
    intro name
    rw [hp, isSome_insertAll, isSome_history]
    simp [empty]
  constructor
  · intro hm rec hrec
    exact ((hm []).get rec.name).mp ((hs rec.name).mpr (.inr ⟨rec, hrec, rfl⟩))
  · intro hc builds
    have hin : ∀ name, (ix'.packages name).isSome ↔
        ∃ rec ∈ core ++ extra ++ aur, rec.name = name := by
      intro name
      rw [hs, or_iff_left_of_imp]
      rintro ⟨rec, hrec, rfl⟩
      exact hc rec hrec
    have hr : ∀ name rec, ix'.packages name = some rec →
        rec ∈ core ++ extra ++ aur ∧ rec.name = name := by
      intro name rec hrec
      obtain ⟨rec', hmem, hn⟩ := (hin name).mp (by rw [hrec]; rfl)
      rw [hp, insertAll_packages] at hrec
      -- a record of this sync is found before what was there
      cases hf : (core ++ extra ++ aur).reverse.find? (·.name = name) with
      | none => simpa [hn] using List.find?_eq_none.mp hf rec' (List.mem_reverse.mpr hmem)
      | some found =>
        rw [hf] at hrec
        obtain rfl := Option.some.inj hrec
        exact ⟨List.mem_reverse.mp (List.mem_of_find?_eq_some hf),
          by simpa using List.find?_some hf⟩
    constructor
    · simpa only [get, builds_packages] using hin
    · simpa only [get, builds_packages] using hr
    · intro name
      simp only [mem_outdated, get, builds_packages]
      refine exists_congr fun built => and_congr_right fun _ => and_congr_right fun _ =>
        exists_congr fun rec => ?_
      exact ⟨fun h => ⟨(hr name rec h.1).1, h⟩, fun h => h.2⟩

/-- A package is built, a newer one is synced and dropped by the next sync, and is reported. -/
theorem dropped_package_reported :
    ∃ ix', ingest (.ok []) (.ok []) (.ok []) 2 (fun _ => none)
        ([.recordBuilt ⟨7, [0x31]⟩ none,
          .ingest (.ok [⟨7, [0x32]⟩]) (.ok []) (.ok []) 1 fun _ => none].foldl apply empty) =
        (.ok ⟨0, 0⟩, ix') ∧
      (ix'.get 7).isSome ∧ 7 ∈ ix'.outdated ∧ ¬ Mirrors [] ix' := by
  refine ⟨_, rfl, by decide, ?_, fun h => ?_⟩
  · rw [mem_outdated]
    exact ⟨⟨7, [0x31]⟩, List.mem_cons_self, rfl, ⟨7, [0x32]⟩, rfl, by decide +kernel⟩
  · obtain ⟨rec, hrec, -⟩ := (h.get 7).mp (by decide)
    cases hrec

/-- The second sync still has the package. -/
theorem index_mirrors_iff_kept :
    ∃ ix', ingest (.ok [⟨7, [0x33]⟩]) (.ok []) (.ok []) 2 (fun _ => none)
        ([.ingest (.ok [⟨7, [0x32]⟩]) (.ok []) (.ok []) 1 fun _ => none].foldl apply empty) =
        (.ok ⟨1, 0⟩, ix') ∧ Mirrors ([⟨7, [0x33]⟩] ++ [] ++ []) ix' := by
  obtain ⟨ix', h⟩ : ∃ ix', ingest (.ok [⟨7, [0x33]⟩]) (.ok []) (.ok []) 2 (fun _ => none)
      ([.ingest (.ok [⟨7, [0x32]⟩]) (.ok []) (.ok []) 1 fun _ => none].foldl apply empty) =
      (.ok ⟨1, 0⟩, ix') := ⟨_, rfl⟩
  exact ⟨ix', h, (index_mirrors_iff _ h).mpr (by decide) []⟩

end Index

end Index

end Qunix.Qpkg
