/-
The tables of the user half as a tree.

A table is named by the indices on the way to it, latest first, and no two ways lead to one
table. An edit of one entry is then seen at that entry's name and nowhere else.
-/

import Qunix.Paging.UserSpace

namespace Qunix.Paging

open Function Qunix.Lib

/-! ### Levels -/

namespace Tables

variable {t : Tables} {k k' f g : Nat} {i j : Fin 512} {x : Option Entry}

def level (t : Tables) : Nat → Nat → Table
  | 0 => t.p4
  | 1 => t.p3
  | 2 => t.p2
  | _ => t.p1

def setLevel (t : Tables) (tables : Nat → Table) : Nat → Tables
  | 0 => { t with p4 := tables }
  | 1 => { t with p3 := tables }
  | 2 => { t with p2 := tables }
  | _ => { t with p1 := tables }

def edit (t : Tables) (k f : Nat) (i : Fin 512) (x : Option Entry) : Tables :=
  t.setLevel (update (t.level k) f (update (t.level k f) i x)) k

/-- A new table is empty. -/
def clear (t : Tables) (k f : Nat) : Tables := t.setLevel (update (t.level k) f fun _ => none) k

theorem level_setLevel {tables : Nat → Table} (hk : k ≤ 3) (hk' : k' ≤ 3) :
    (t.setLevel tables k).level k' = if k' = k then tables else t.level k' := by
  have hc : ∀ n ≤ 3, n = 0 ∨ n = 1 ∨ n = 2 ∨ n = 3 := by omega
  rcases hc k hk with rfl | rfl | rfl | rfl <;>
    rcases hc k' hk' with rfl | rfl | rfl | rfl <;> rfl

theorem level_edit (hk : k ≤ 3) (hk' : k' ≤ 3) :
    (t.edit k f i x).level k' g j = if k' = k ∧ g = f ∧ j = i then x else t.level k' g j := by
  rw [edit, level_setLevel hk hk']
  rcases eq_or_ne k' k with rfl | hl
  · rcases eq_or_ne g f with rfl | hg
    · rcases eq_or_ne j i with rfl | hj
      · simp
      · simp [hj]
    · simp [hg]
  · simp [hl]

theorem level_clear (hk : k ≤ 3) (hk' : k' ≤ 3) :
    (t.clear k f).level k' g j = if k' = k ∧ g = f then none else t.level k' g j := by
  rw [clear, level_setLevel hk hk']
  rcases eq_or_ne k' k with rfl | hl
  · rcases eq_or_ne g f with rfl | hg
    · simp
    · simp [hg]
  · simp [hl]

end Tables

/-! ### Ways -/

/-- The indices on the way to a table, latest first. -/
abbrev Way := List (Fin 512)

/-- The way starts in the user half. -/
def Way.User : Way → Prop
  | [] => True
  | [i] => i.val < 256
  | _ :: j :: p => Way.User (j :: p)

theorem Way.User.tail (h : Way.User (i :: p)) : Way.User p := by
  cases p with
  | nil => trivial
  | cons j p => exact h

/-- The table a way leads to. -/
def node (t : Tables) (root : Nat) : Way → Option Nat
  | [] => some root
  | i :: p => ((node t root p).bind fun f => t.level p.length f i).map Entry.addr

/-- The entry at the end of a way. -/
def entry (t : Tables) (root : Nat) (i : Fin 512) (p : Way) : Option Entry :=
  (node t root p).bind fun f => t.level p.length f i

variable {t : Tables} {root : Nat} {i : Fin 512} {p : Way}

theorem node_cons : node t root (i :: p) = (entry t root i p).map Entry.addr := rfl

variable {f : Nat} {j : Fin 512} {q : Way}

theorem entry_of_node (h : node t root p = some f) :
    entry t root i p = t.level p.length f i := by rw [entry, h, Option.bind_some]

theorem node_of_entry {e : Entry} (h : entry t root i p = some e) :
    node t root (i :: p) = some e.addr := by rw [node_cons, h, Option.map_some]

/-- No two ways through the user half lead to one table. -/
def Private (t : Tables) (root : Nat) : Prop :=
  ∀ p q f, p.length = q.length → p.length ≤ 3 → p.User → q.User →
    node t root p = some f → node t root q = some f → p = q

/-- Tables with the same entries on the ways through the user half have the same nodes. -/
theorem node_congr {t' : Tables} (he : ∀ (q : Way) (j : Fin 512), q.length ≤ 3 →
      Way.User (j :: q) → entry t' root j q = entry t root j q)
    (q : Way) (hq : q.length ≤ 3) (hqu : q.User) : node t' root q = node t root q := by
  cases q with
  | nil => rfl
  | cons j q => rw [node_cons, node_cons, he q j (Nat.le_of_succ_le hq) hqu]

theorem Private.congr {t' : Tables} (h : Private t root)
    (hn : ∀ q : Way, q.length ≤ 3 → q.User → node t' root q = node t root q) :
    Private t' root := by
  intro q q' f hlen hq hqu hq' hf hf'
  rw [hn q hq hqu] at hf
  rw [hn q' (hlen ▸ hq) hq'] at hf'
  exact h q q' f hlen hq hqu hq' hf hf'

/-- An edit that keeps what is below the entry changes this entry only. -/
theorem entry_edit (hpr : Private t root) {x : Option Entry} (hp : p.length ≤ 3) (hu : p.User)
    (hf : node t root p = some f)
    (hb : p.length < 3 → ∀ j, (x.bind fun e => t.level (p.length + 1) e.addr j) =
      (t.level p.length f i).bind fun e => t.level (p.length + 1) e.addr j)
    (hq : q.length ≤ 3) (hqu : q.User) :
    entry (t.edit p.length f i x) root j q = if j :: q = i :: p then x else entry t root j q := by
  induction q generalizing j with
  | nil =>
    rw [entry_of_node rfl, entry_of_node rfl, Tables.level_edit hp hq]
    cases p with
    | nil =>
      cases hf
      simp
    | cons a p => simp
  | cons a q ih =>
    have hn : node (t.edit p.length f i x) root (a :: q) =
        if a :: q = i :: p then x.map Entry.addr else node t root (a :: q) := by
      rw [node_cons, ih (Nat.le_of_succ_le hq) hqu.tail]
      split <;> rfl
    by_cases hway : a :: q = i :: p
    · -- just below the entry: the tables there are those below the old one
      rw [if_pos hway] at hn
      obtain ⟨rfl, rfl⟩ := List.cons.inj hway
      rw [List.length_cons] at hq
      have hlen : ¬ j :: a :: q = a :: q := fun h => by simpa using congrArg List.length h
      have hl : (t.edit q.length f a x).level (q.length + 1) = t.level (q.length + 1) := by
        rw [Tables.edit, Tables.level_setLevel hp hq, if_neg (by omega)]
      rw [if_neg hlen, entry, entry, hn, node_cons, entry_of_node hf, List.length_cons, hl]
      rw [Option.bind_map, Option.bind_map]
      exact hb (by omega) j
    · rw [if_neg hway] at hn
      rw [entry, entry, hn]
      cases hg : node t root (a :: q) with
      | none =>
        have hne : ¬ j :: a :: q = i :: p := by
          intro h
          rw [(List.cons.inj h).2, hf] at hg
          cases hg
        rw [if_neg hne]
        rfl
      | some g =>
        rw [Option.bind_some, Option.bind_some, Tables.level_edit hp hq]
        by_cases hh : (a :: q).length = p.length ∧ g = f ∧ j = i
        · obtain ⟨hlen, rfl, rfl⟩ := hh
          have hpa := hpr _ _ _ hlen hq hqu hu hg hf
          rw [if_pos ⟨hlen, rfl, rfl⟩, hpa, if_pos rfl]
        · have hne : ¬ j :: a :: q = i :: p := by
            intro h
            obtain ⟨hj, ht⟩ := List.cons.inj h
            rw [← ht, hg] at hf
            exact hh ⟨congrArg List.length ht, Option.some.inj hf, hj⟩
          rw [if_neg hh, if_neg hne]

/-! ### The user half as a tree -/

/-- The way to a page. -/
def wayOf (n : Nat) : Fin 512 × Way :=
  (⟨n % 512, Nat.mod_lt _ (by decide)⟩,
    [⟨n / 2 ^ 9 % 512, Nat.mod_lt _ (by decide)⟩, ⟨n / 2 ^ 18 % 512, Nat.mod_lt _ (by decide)⟩,
      ⟨n / 2 ^ 27 % 512, Nat.mod_lt _ (by decide)⟩])

def Leaf.of (e : Entry) : Leaf := ⟨e.addr, e.has PageFlags.writable, !e.has PageFlags.noExecute⟩

/-- An entry that leads to a table permits all but writes; writes are permitted where
something below is writable. -/
structure Radix (t : Tables) (root : Nat) (tables : List Nat) (view : View) : Prop where
  apart : Private t root
  mem : ∀ {i p e}, p.length ≤ 2 → Way.User (i :: p) → entry t root i p = some e → e.addr ∈ tables
  parent : ∀ {i p e}, p.length ≤ 2 → Way.User (i :: p) → entry t root i p = some e →
    e.huge = false ∧ e.has PageFlags.noExecute = false
  user : ∀ {i p e}, p.length ≤ 3 → Way.User (i :: p) → entry t root i p = some e →
    e.has PageFlags.user = true
  writable : ∀ {j i p e}, p.length ≤ 2 → Way.User (i :: p) → entry t root j (i :: p) = some e →
    e.has PageFlags.writable = true →
    ∃ e', entry t root i p = some e' ∧ e'.has PageFlags.writable = true
  view : ∀ n < 2 ^ 35, view n = (entry t root (wayOf n).1 (wayOf n).2).map Leaf.of

theorem wayOf_user {n : Nat} (hn : n < 2 ^ 35) : Way.User (wayOf n).2 := by
  change n / 2 ^ 27 % 512 < 256
  omega

/-- Tables that differ in one entry of the user half. -/
structure Edited (t t' : Tables) (root : Nat) (i : Fin 512) (p : Way) (x : Option Entry) :
    Prop where
  length_le : p.length ≤ 3
  user : Way.User (i :: p)
  entry_eq : ∀ {j q}, q.length ≤ 3 → Way.User q →
    entry t' root j q = if j :: q = i :: p then x else entry t root j q

namespace Edited

variable {t' : Tables} {x : Option Entry} {tables tables' : List Nat} {view view' : View}

variable (h : Edited t t' root i p x)

include h

theorem entry_self : entry t' root i p = x := by
  rw [h.entry_eq h.length_le h.user.tail, if_pos rfl]

theorem node_eq {q : Way} (hq : q.length ≤ 3) (hqu : q.User) :
    node t' root q = if q = i :: p then x.map Entry.addr else node t root q := by
  cases q with
  | nil => rfl
  | cons j q =>
    rw [node_cons, h.entry_eq (Nat.le_of_succ_le hq) hqu.tail]
    split <;> rfl

/-- The entry keeps its table, or it is not one that leads to a table. -/
theorem apart_of_same (hp : Private t root)
    (hs : p.length ≤ 2 → x.map Entry.addr = node t root (i :: p)) : Private t' root := by
  refine hp.congr fun q hq hqu => ?_
  rw [h.node_eq hq hqu]
  split_ifs with heq
  · subst heq
    exact hs (Nat.le_of_succ_le_succ hq)
  · rfl

theorem apart_of_new (hp : Private t root) {g : Nat}
    (hx : x.map Entry.addr = some g)
    (hnew : ∀ q : Way, q.length ≤ 3 → q.User → node t root q ≠ some g) : Private t' root := by
  intro q q' f hlen hq hqu hq' hf hf'
  rw [h.node_eq hq hqu, hx] at hf
  rw [h.node_eq (hlen ▸ hq) hq', hx] at hf'
  split_ifs at hf with heq
  · split at hf'
    · rename_i heq'
      rw [heq, heq']
    · rw [← hf] at hf'
      exact absurd hf' (hnew q' (hlen ▸ hq) hq')
  · split at hf'
    · rw [← hf'] at hf
      exact absurd hf (hnew q hq hqu)
    · exact hp q q' f hlen hq hqu hq' hf hf'

theorem entry_cases {e : Entry} (hq : q.length ≤ 3) (hqu : q.User)
    (he : entry t' root j q = some e) :
    j = i ∧ q = p ∧ x = some e ∨ entry t root j q = some e := by
  rw [h.entry_eq hq hqu] at he
  split_ifs at he with heq
  · obtain ⟨rfl, rfl⟩ := List.cons.inj heq
    exact .inl ⟨rfl, rfl, he⟩
  · exact .inr he

theorem radix (hr : Radix t root tables view)
    (hpr : Private t' root) (hsub : ∀ f ∈ tables, f ∈ tables')
    (hp : p.length ≤ 2 → ∀ e, x = some e → e.addr ∈ tables' ∧ e.huge = false ∧
      e.has PageFlags.noExecute = false)
    (hu : ∀ e, x = some e → e.has PageFlags.user = true)
    (ha : ∀ e, x = some e → e.has PageFlags.writable = true → ∀ i' p', p = i' :: p' →
      ∃ e', entry t root i' p' = some e' ∧ e'.has PageFlags.writable = true)
    (hb : p.length ≤ 2 → ∀ e, entry t root i p = some e → e.has PageFlags.writable = true →
      ∃ e', x = some e' ∧ e'.has PageFlags.writable = true)
    (hv : ∀ n < 2 ^ 35, view' n =
      (if (wayOf n).1 :: (wayOf n).2 = i :: p then x
        else entry t root (wayOf n).1 (wayOf n).2).map Leaf.of) :
    Radix t' root tables' view' := by
  constructor
  case apart => exact hpr
  case mem =>
    intro j q e hq hqu he
    rcases h.entry_cases (by omega) hqu.tail he with ⟨rfl, rfl, he⟩ | he
    · exact (hp hq e he).1
    · exact hsub _ (hr.mem hq hqu he)
  case parent =>
    intro j q e hq hqu he
    rcases h.entry_cases (by omega) hqu.tail he with ⟨rfl, rfl, he⟩ | he
    · exact (hp hq e he).2
    · exact hr.parent hq hqu he
  case user =>
    intro j q e hq hqu he
    rcases h.entry_cases hq hqu.tail he with ⟨-, -, he⟩ | he
    · exact hu e he
    · exact hr.user hq hqu he
  case writable =>
    intro j a q e hq hqu he hw
    rw [h.entry_eq (by omega) hqu.tail]
    rcases h.entry_cases (q := a :: q) (Nat.succ_le_succ hq) hqu he with ⟨rfl, rfl, he⟩ | he
    · rw [if_neg fun heq => by simpa using congrArg List.length heq]
      exact ha e he hw a q rfl
    · obtain ⟨e', he', hw'⟩ := hr.writable hq hqu he hw
      split_ifs with heq
      · obtain ⟨rfl, rfl⟩ := List.cons.inj heq
        exact hb hq e' he' hw'
      · exact ⟨e', he', hw'⟩
  case view =>
    intro n hn
    rw [h.entry_eq (q := (wayOf n).2) (Nat.le_refl 3) (wayOf_user hn)]
    exact hv n hn

end Edited

end Qunix.Paging
