/-
Maps in the order of their keys.

The entries are a list whose keys ascend. The entry of a key is changed where it stands, or
inserted where it belongs; what is found under the other keys stays as it was.
-/

import Mathlib.Order.Lattice

namespace Qunix.Lib

variable {κ ν : Type} [LinearOrder κ]

structure OrderedMap (κ ν : Type) [LinearOrder κ] where
  entries : List (κ × ν)
  ascending : entries.Pairwise fun a b => a.1 < b.1

namespace OrderedMap

/-- A change of one entry, which may not be there yet. -/
def upsertIn (k : κ) (f : Option ν → ν) : List (κ × ν) → List (κ × ν)
  | [] => [(k, f none)]
  | (k', v) :: rest =>
    if k < k' then (k, f none) :: (k', v) :: rest
    else if k = k' then (k', f (some v)) :: rest
    else (k', v) :: upsertIn k f rest

variable {k k' : κ} {v : ν} {f : Option ν → ν} {l : List (κ × ν)}

theorem lt_of_mem_upsertIn (hk : k' < k) (hl : ∀ e ∈ l, k' < e.1) :
    ∀ e ∈ upsertIn k f l, k' < e.1 := by
  induction l with
  | nil =>
    intro e he
    obtain rfl := List.mem_singleton.mp he
    exact hk
  | cons first rest ih =>
    intro e he
    have hr := fun e he => hl e (List.mem_cons_of_mem _ he)
    unfold upsertIn at he
    split at he
    · rcases List.mem_cons.mp he with rfl | he
      · exact hk
      · exact hl e he
    · split at he
      · rcases List.mem_cons.mp he with rfl | he
        · exact hl first List.mem_cons_self
        · exact hr e he
      · rcases List.mem_cons.mp he with rfl | he
        · exact hl _ List.mem_cons_self
        · exact ih hr e he

theorem ascending_upsertIn (h : l.Pairwise fun a b => a.1 < b.1) :
    (upsertIn k f l).Pairwise fun a b => a.1 < b.1 := by
  induction l with
  | nil => exact List.pairwise_singleton _ _
  | cons first rest ih =>
    obtain ⟨hf, hr⟩ := List.pairwise_cons.mp h
    unfold upsertIn
    split
    · rename_i hlt
      refine List.pairwise_cons.mpr ⟨?_, h⟩
      intro e he
      rcases List.mem_cons.mp he with rfl | he
      · exact hlt
      · exact lt_trans hlt (hf e he)
    · rename_i hge
      split_ifs with hne
      · exact List.pairwise_cons.mpr ⟨hf, hr⟩
      · have hlt := lt_of_le_of_ne (not_lt.mp hge) (Ne.symm hne)
        exact List.pairwise_cons.mpr ⟨lt_of_mem_upsertIn hlt hf, ih hr⟩

theorem lookup_cons (e : κ × ν) : (e :: l).lookup k = if k = e.1 then some e.2 else l.lookup k := by
  by_cases hk : k = e.1
  · rw [if_pos hk, hk]
    exact List.lookup_cons_self
  · have hne : (k == e.1) = false := beq_eq_false_iff_ne.mpr hk
    rw [if_neg hk, List.lookup_cons, hne]

theorem lookup_eq_none_of_lt (h : ∀ e ∈ l, k < e.1) : l.lookup k = none := by
  induction l with
  | nil => rfl
  | cons first rest ih =>
    rw [lookup_cons, if_neg (ne_of_lt (h first List.mem_cons_self))]
    exact ih fun e he => h e (List.mem_cons_of_mem _ he)

theorem lookup_upsertIn (h : l.Pairwise fun a b => a.1 < b.1) :
    (upsertIn k f l).lookup k' = if k' = k then some (f (l.lookup k)) else l.lookup k' := by
  induction l with
  | nil => exact lookup_cons _
  | cons first rest ih =>
    obtain ⟨hfi, hr⟩ := List.pairwise_cons.mp h
    unfold upsertIn
    split
    · rename_i hlt
      have hn : List.lookup k (first :: rest) = none := by
        apply lookup_eq_none_of_lt
        intro e he
        rcases List.mem_cons.mp he with rfl | he
        · exact hlt
        · exact lt_trans hlt (hfi e he)
      rw [hn]
      exact lookup_cons _
    · split
      · rename_i heq
        subst heq
        simp only [lookup_cons]
        split
        · rfl
        · rfl
      · rename_i hne
        simp only [lookup_cons, ih hr]
        split
        · rename_i hf
          rw [if_neg (hf ▸ Ne.symm hne)]
        · rfl

theorem mem_iff_lookup (h : l.Pairwise fun a b => a.1 < b.1) :
    (k, v) ∈ l ↔ l.lookup k = some v := by
  induction l with
  | nil => simp
  | cons first rest ih =>
    obtain ⟨hf, hr⟩ := List.pairwise_cons.mp h
    rw [lookup_cons, List.mem_cons]
    split_ifs with heq
    · subst heq
      have hnot : (first.1, v) ∉ rest := fun hmem => lt_irrefl first.1 (hf (first.1, v) hmem)
      simp [hnot, Prod.ext_iff, eq_comm]
    · rw [← ih hr, or_iff_right]
      rintro rfl
      exact heq rfl

def empty : OrderedMap κ ν := ⟨[], List.Pairwise.nil⟩

def find (m : OrderedMap κ ν) (k : κ) : Option ν := m.entries.lookup k

def upsert (m : OrderedMap κ ν) (k : κ) (f : Option ν → ν) : OrderedMap κ ν :=
  ⟨upsertIn k f m.entries, ascending_upsertIn m.ascending⟩

variable {m : OrderedMap κ ν}

theorem find_empty : (empty : OrderedMap κ ν).find k = none := rfl

theorem find_upsert : (m.upsert k f).find k' = if k' = k then some (f (m.find k)) else m.find k' :=
  lookup_upsertIn m.ascending

theorem mem_entries : (k, v) ∈ m.entries ↔ m.find k = some v := mem_iff_lookup m.ascending

end OrderedMap

end Qunix.Lib
