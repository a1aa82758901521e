/-
A mapper of 4 KiB pages.

It descends four levels, takes a frame from the allocator for each table that is
missing, and behaves as `Mapper.Documented` says: each step of the descent edits one
entry of the tree.
-/

import Qunix.Paging.Ways

namespace Qunix.Paging

open Function Qunix.Lib

variable {t : Tables} {root : Nat} {i : Fin 512} {p : Way}

/-! ### Flags -/

variable {a : Nat} {w x : Bool}

theorem has_or {flags flags' flag : BitVec 64} :
    Entry.has ⟨a, flags ||| flags'⟩ flag =
      (Entry.has ⟨a, flags⟩ flag || Entry.has ⟨a, flags'⟩ flag) := by
  have hor : (flags ||| flags') &&& flag = (flags &&& flag) ||| (flags' &&& flag) := by
    ext k
    simp [Bool.and_or_distrib_right]
  rw [Bool.eq_iff_iff]
  simp only [Entry.has, hor, bne_iff_ne, ne_eq, BitVec.or_eq_zero_iff, Bool.or_eq_true,
    Classical.not_and_iff_not_or_not]

/-- The flags of the entries that lead to a page. -/
def parentFlags (w x : Bool) : BitVec 64 := PageFlags.toX86 (VmSpace.userFlags w x) &&& 7#64

theorem parentFlags_has :
    Entry.has ⟨a, parentFlags w x⟩ PageFlags.user = true ∧
      Entry.has ⟨a, parentFlags w x⟩ PageFlags.writable = w ∧
      Entry.has ⟨a, parentFlags w x⟩ PageFlags.noExecute = false ∧
      Entry.has ⟨a, parentFlags w x⟩ hugePage = false := by
  simp only [Entry.has]
  revert w x
  decide

theorem leafFlags_has :
    Entry.has ⟨a, PageFlags.toX86 (VmSpace.userFlags w x)⟩ PageFlags.user = true ∧
      Leaf.of ⟨a, PageFlags.toX86 (VmSpace.userFlags w x)⟩ = ⟨a, w, x⟩ := by
  simp only [Leaf.of, Entry.has, Leaf.mk.injEq]
  revert w x
  decide

/-! ### The mapper -/

/-- A walk on its way: the tables, the answers that are left and the calls made. -/
structure Walk where
  tables : Tables
  frames : List (Option Nat)
  taken : Nat

namespace Walk

/-- Follows an entry to the next table, or links the next frame there. -/
def follow (k f : Nat) (i : Fin 512) (flags : BitVec 64) : Attempt Walk MapToError Nat := fun s =>
  match s.tables.level k f i with
  | some e =>
    let s := { s with tables := s.tables.edit k f i (some ⟨e.addr, e.flags ||| flags⟩) }
    if e.huge then (.error .parentEntryHugePage, s) else (.ok e.addr, s)
  | none =>
    match s.frames with
    | some g :: frames =>
      (.ok g, ⟨(s.tables.clear (k + 1) g).edit k f i (some ⟨g, flags⟩), frames, s.taken + 1⟩)
    | frames => (.error .frameAllocationFailed, ⟨s.tables, frames.tail, s.taken + 1⟩)

def setLeaf (f : Nat) (i : Fin 512) (leaf : Entry) : Attempt Walk MapToError Unit := fun s =>
  match s.tables.level 3 f i with
  | some _ => (.error .pageAlreadyMapped, s)
  | none => (.ok (), { s with tables := s.tables.edit 3 f i (some leaf) })

def mapTo (root : Nat) (va : Addr) (pa : Nat) (flags : BitVec 64) :
    Attempt Walk MapToError Unit := do
  let p3 ← follow 0 root (p4Index va) (flags &&& 7#64)
  let p2 ← follow 1 p3 (p3Index va) (flags &&& 7#64)
  let p1 ← follow 2 p2 (p2Index va) (flags &&& 7#64)
  setLeaf p1 (p1Index va) ⟨pa, flags⟩

end Walk

/-- A mapper of 4 KiB pages, to have one. -/
def radix : Mapper where
  mapTo t root size va pa flags frames :=
    match size with
    | .size4KiB =>
      let out := Walk.mapTo root va pa flags ⟨t, frames, 0⟩
      ⟨out.2.tables, out.1, out.2.taken⟩
    | .size2MiB => ⟨t, .error .parentEntryHugePage, 0⟩
  unmap t root va :=
    match lastTable t root va with
    | none => (t, .error .pageNotMapped)
    | some f =>
      match t.p1 f (p1Index va) with
      | none => (t, .error .pageNotMapped)
      | some e => (t.edit 3 f (p1Index va) none, .ok e.addr)

/-! ### It maps pages -/

section Mapping

variable {view : View} {tables : List Nat} {f : Nat} {x : Option Entry}

theorem Radix.node_mem (h : Radix t root tables view) {q : Way} (hq : q.length ≤ 3)
    (hqu : q.User) (hf : node t root q = some f) : f ∈ root :: tables := by
  cases q with
  | nil =>
    cases hf
    exact List.mem_cons_self
  | cons j q =>
    obtain ⟨e, he, rfl⟩ := Option.map_eq_some_iff.mp hf
    exact List.mem_cons_of_mem _ (h.mem (Nat.le_of_succ_le_succ hq) hqu he)

theorem Edited.of_edit (hpr : Private t root) (hp : p.length ≤ 3) (hu : Way.User (i :: p))
    (hf : node t root p = some f)
    (hb : p.length < 3 → ∀ j, (x.bind fun e => t.level (p.length + 1) e.addr j) =
      (t.level p.length f i).bind fun e => t.level (p.length + 1) e.addr j) :
    Edited t (t.edit p.length f i x) root i p x where
  length_le := hp
  user := hu
  entry_eq := fun hq hqu => entry_edit hpr hp hu.tail hf hb hq hqu

variable {frames : List (Option Nat)} {w b : Bool}

/-- What a walk from `t` has done so far. -/
structure Walk.Sound (t : Tables) (root : Nat) (tables : List Nat) (frames : List (Option Nat))
    (view : View) (s : Walk) : Prop where
  frames_eq : s.frames = frames.drop s.taken
  radix : Radix s.tables root (tables ++ (frames.take s.taken).filterMap id) view
  half : ∀ i : Fin 512, 256 ≤ i.val → s.tables.p4 root i = t.p4 root i
  same : SameTables t s.tables fun f => f ∉ tables ∧ some f ∉ frames.take s.taken

/-- The walk has come to a table; the entry before it permits writes if it is to. -/
structure Walk.At (s : Walk) (root : Nat) (p : Way) (f : Nat) (w : Bool) : Prop where
  node_eq : node s.tables root p = some f
  writable : w = true → ∀ i q, p = i :: q →
    ∃ e, entry s.tables root i q = some e ∧ e.has PageFlags.writable = true

namespace Tables

variable {k g : Nat} {j : Fin 512}

theorem p4_edit (hk : k ≤ 3) (h : k = 0 → i ≠ j) :
    (t.edit k f i x).p4 root j = t.p4 root j := by
  change (t.edit k f i x).level 0 root j = t.level 0 root j
  rw [level_edit hk (by decide), if_neg]
  rintro ⟨hk, -, rfl⟩
  exact h hk.symm rfl

theorem p4_clear (hk : k ≤ 3) (hk0 : k ≠ 0) :
    (t.clear k g).p4 root j = t.p4 root j := by
  change (t.clear k g).level 0 root j = t.level 0 root j
  rw [level_clear hk (by decide), if_neg fun h => hk0 h.1.symm]

theorem sameTables_of_level {t' : Tables} {among : Nat → Prop}
    (h : ∀ k, k ≠ 0 → k ≤ 3 → ∀ f, among f → t'.level k f = t.level k f) : SameTables t t' among :=
  fun f hf => ⟨h 1 (by decide) (by decide) f hf, h 2 (by decide) (by decide) f hf,
    h 3 (by decide) (by decide) f hf⟩

theorem sameTables_edit (hk : k ≤ 3) :
    SameTables t (t.edit k f i x) fun g => k = 0 ∨ g ≠ f := by
  apply sameTables_of_level
  intro k' hk0 hk' g hg
  funext j
  rw [level_edit hk hk', if_neg]
  rintro ⟨rfl, rfl, -⟩
  rcases hg with hg | hg
  · exact hk0 hg
  · exact hg rfl

theorem sameTables_clear (hk : k ≤ 3) : SameTables t (t.clear k g) fun f => f ≠ g := by
  apply sameTables_of_level
  intro k' _ hk' f hf
  funext j
  rw [level_clear hk hk', if_neg fun h => hf h.2]

end Tables

theorem SameTables.trans {t' t'' : Tables} {among among' among'' : Nat → Prop}
    (h : SameTables t t' among) (h' : SameTables t' t'' among') (hf : ∀ f, among'' f → among f)
    (hf' : ∀ f, among'' f → among' f) : SameTables t t'' among'' := by
  intro f h''
  obtain ⟨h3, h2, h1⟩ := h f (hf f h'')
  obtain ⟨h3', h2', h1'⟩ := h' f (hf' f h'')
  exact ⟨h3'.trans h3, h2'.trans h2, h1'.trans h1⟩

theorem Radix.mono (h : Radix t root tables view) {tables' : List Nat}
    (hsub : ∀ f ∈ tables, f ∈ tables') : Radix t root tables' view :=
  { h with mem := fun hp hu he => hsub _ (h.mem hp hu he) }

theorem Radix.entry_congr (h : Radix t root tables view) {t' : Tables}
    (hp4 : ∀ i : Fin 512, i.val < 256 → t'.p4 root i = t.p4 root i)
    (hs : SameTables t t' (· ∈ tables)) (q : Way) (j : Fin 512) (hq : q.length ≤ 3)
    (hj : Way.User (j :: q)) : entry t' root j q = entry t root j q := by
  have hl : ∀ k f, k ≠ 0 → f ∈ tables → t'.level k f = t.level k f := by
    intro k f hk hf
    obtain ⟨h3, h2, h1⟩ := hs f hf
    match k with
    | 1 => exact h3
    | 2 => exact h2
    | k + 3 => exact h1
  induction q generalizing j with
  | nil => exact hp4 j hj
  | cons a q ih =>
    rw [entry, entry, node_cons, node_cons, ih a (Nat.le_of_succ_le hq) hj.tail]
    cases he : entry t root a q with
    | none => rfl
    | some e =>
      have hmem := h.mem (Nat.le_of_succ_le_succ hq) hj.tail he
      exact congrFun (hl (a :: q).length e.addr (by simp) hmem) j

theorem Radix.congr (h : Radix t root tables view) {t' : Tables}
    (hp4 : ∀ i : Fin 512, i.val < 256 → t'.p4 root i = t.p4 root i)
    (hs : SameTables t t' (· ∈ tables)) : Radix t' root tables view := by
  have hen := h.entry_congr hp4 hs
  constructor
  case apart => exact h.apart.congr (node_congr hen)
  case mem =>
    intro j q e hq hqu he
    rw [hen q j (by omega) hqu] at he
    exact h.mem hq hqu he
  case parent =>
    intro j q e hq hqu he
    rw [hen q j (by omega) hqu] at he
    exact h.parent hq hqu he
  case user =>
    intro j q e hq hqu he
    rw [hen q j hq hqu] at he
    exact h.user hq hqu he
  case writable =>
    intro j a q e hq hqu he hw
    rw [hen (a :: q) j (Nat.succ_le_succ hq) hqu] at he
    rw [hen q a (by omega) hqu]
    exact h.writable hq hqu he hw
  case view =>
    intro n hn
    rw [hen (wayOf n).2 (wayOf n).1 (Nat.le_refl 3) (wayOf_user hn)]
    exact h.view n hn

namespace Walk

open Attempt

variable {s : Walk} {g : Nat} {rest : List (Option Nat)} {n n' : Nat}

theorem mem_tables_mono (hn : n ≤ n') :
    ∀ f ∈ tables ++ (frames.take n).filterMap id, f ∈ tables ++ (frames.take n').filterMap id := by
  intro f hf
  rcases List.mem_append.mp hf with hf | hf
  · exact List.mem_append_left _ hf
  · obtain ⟨answer, ha, hid⟩ := List.mem_filterMap.mp hf
    exact List.mem_append_right _
      (List.mem_filterMap.mpr ⟨answer, List.take_subset_take_left frames hn ha, hid⟩)

theorem wayOf_ne (hp : p.length ≤ 2) : ¬ (wayOf n).1 :: (wayOf n).2 = i :: p := by
  intro h
  have hlen := congrArg List.length (List.cons.inj h).2
  change 3 = p.length at hlen
  omega

theorem Sound.not_elsewhere (h : Sound t root tables frames view s) (hp : p.length ≤ 3)
    (hu : p.User) (hf : node s.tables root p = some f) {f' : Nat}
    (hf' : f' ∉ tables ∧ some f' ∉ frames.take s.taken) : p.length = 0 ∨ f' ≠ f := by
  cases p with
  | nil => exact .inl rfl
  | cons j q =>
    right
    rintro rfl
    obtain ⟨e, he, rfl⟩ := Option.map_eq_some_iff.mp hf
    rcases List.mem_append.mp (h.radix.mem (Nat.le_of_succ_le_succ hp) hu he) with hmem | hmem
    · exact hf'.1 hmem
    · obtain ⟨answer, ha, hid⟩ := List.mem_filterMap.mp hmem
      exact hf'.2 ((show answer = some e.addr from hid) ▸ ha)

section

variable (h : Sound t root tables frames view s)

include h

/-- An edit of an entry of the user half leaves the other half, and tables of others. -/
theorem Sound.edit (hf : node s.tables root p = some f) (hp : p.length ≤ 3)
    (hu : Way.User (i :: p)) :
    (∀ j : Fin 512, 256 ≤ j.val → (s.tables.edit p.length f i x).p4 root j = t.p4 root j) ∧
      SameTables t (s.tables.edit p.length f i x)
        fun f => f ∉ tables ∧ some f ∉ frames.take s.taken := by
  constructor
  · intro j hj
    refine (Tables.p4_edit hp fun hlen heq => ?_).trans (h.half j hj)
    rw [List.length_eq_zero_iff.mp hlen, heq] at hu
    exact absurd hj (Nat.not_le.mpr hu)
  · exact h.same.trans (Tables.sameTables_edit hp) (fun _ hf => hf) fun _ hf' =>
      h.not_elsewhere hp hu.tail hf hf'

/-- The entry at the end of the way is set to one that leads to a table. -/
theorem Sound.link (hat : s.At root p f w) (hp : p.length ≤ 2) (hu : Way.User (i :: p)) {e : Entry}
    (hb : ∀ j, s.tables.level (p.length + 1) e.addr j =
      (s.tables.level p.length f i).bind fun e => s.tables.level (p.length + 1) e.addr j)
    (hpr : Edited s.tables (s.tables.edit p.length f i (some e)) root i p (some e) →
      Private (s.tables.edit p.length f i (some e)) root)
    (hmem : e.addr ∈ tables ++ (frames.take s.taken).filterMap id)
    (hfl : e.huge = false ∧ e.has PageFlags.noExecute = false ∧ e.has PageFlags.user = true)
    (hw : e.has PageFlags.writable =
      ((s.tables.level p.length f i).any (·.has PageFlags.writable) || w)) :
    let s' := { s with tables := s.tables.edit p.length f i (some e) }
    Sound t root tables frames view s' ∧ s'.At root (i :: p) e.addr w := by
  have hed := Edited.of_edit (x := some e) h.radix.apart (by omega) hu hat.node_eq fun _ => hb
  rw [← entry_of_node hat.node_eq] at hw
  obtain ⟨hh, hnx, hus⟩ := hfl
  refine ⟨⟨h.frames_eq, ?_, ?_, ?_⟩, node_of_entry hed.entry_self, ?_⟩
  · refine hed.radix h.radix (hpr hed) (fun _ hf => hf) ?_ ?_ ?_ ?_ ?_
    · rintro _ _ ⟨⟩
      exact ⟨hmem, hh, hnx⟩
    · rintro _ ⟨⟩
      exact hus
    · rintro _ ⟨⟩ hwe i' p' rfl
      rw [hw, Bool.or_eq_true, Option.any_eq_true] at hwe
      rcases hwe with ⟨e', he', hw'⟩ | hw
      · exact h.radix.writable (Nat.le_of_succ_le hp) hu.tail he' hw'
      · exact hat.writable hw i' p' rfl
    · intro _ e' he' hw'
      exact ⟨e, rfl, by rw [hw, he', Option.any_some, hw', Bool.true_or]⟩
    · intro n hn
      rw [if_neg (wayOf_ne hp)]
      exact h.radix.view n hn
  · exact (h.edit hat.node_eq (by omega) hu).1
  · exact (h.edit hat.node_eq (by omega) hu).2
  · rintro hwr j q ⟨⟩
    exact ⟨e, hed.entry_self, by rw [hw, hwr, Bool.or_true]⟩

theorem Sound.follow_some (hat : s.At root p f w) (hp : p.length ≤ 2) (hu : Way.User (i :: p))
    {e : Entry} (he : s.tables.level p.length f i = some e) :
    let s' := { s with
      tables := s.tables.edit p.length f i (some ⟨e.addr, e.flags ||| parentFlags w b⟩) }
    e.huge = false ∧ Sound t root tables frames view s' ∧ s'.At root (i :: p) e.addr w := by
  obtain ⟨hfuser, hfw, hfnx, hfhuge⟩ := parentFlags_has
  have hentry : entry s.tables root i p = some e := by rw [entry_of_node hat.node_eq, he]
  obtain ⟨hh, hnx⟩ := h.radix.parent hp hu hentry
  have hmem := h.radix.mem hp hu hentry
  refine ⟨hh, h.link (e := ⟨e.addr, e.flags ||| parentFlags w b⟩) hat hp hu ?_ (fun hed => ?_)
    hmem ⟨?_, ?_, ?_⟩ ?_⟩
  · exact fun j => by rw [he, Option.bind_some]
  · refine hed.apart_of_same h.radix.apart fun _ => ?_
    rw [node_of_entry hentry]
    rfl
  · exact has_or.trans (by rw [hfhuge, Bool.or_false]; exact hh)
  · rw [has_or, hfnx, Bool.or_false]
    exact hnx
  · rw [has_or, hfuser, Bool.or_true]
  · rw [has_or, hfw, he, Option.any_some]

/-- The frame that the allocator gives is made an empty table, which no entry leads to. -/
theorem Sound.take (hfresh : Fresh frames (root :: tables)) (hfr : s.frames = some g :: rest)
    {k : Nat}
    (hk : k ≤ 3) (hk0 : k ≠ 0) :
    let s' : Walk := ⟨s.tables.clear k g, rest, s.taken + 1⟩
    Sound t root tables frames view s' ∧
      g ∈ tables ++ (frames.take s'.taken).filterMap id ∧
      (∀ q : Way, q.length ≤ 3 → q.User → node s'.tables root q ≠ some g) ∧
      ∀ p f, p.length ≤ 3 → p.User → s.At root p f w → s'.At root p f w := by
  have hd : frames.drop s.taken = some g :: rest := by rw [← h.frames_eq, hfr]
  have hu : g ∉ root :: tables ++ (frames.take s.taken).filterMap id := by
    intro hmem
    have hun := (hfresh.drop s.taken).unused g hmem
    rw [hd] at hun
    exact hun List.mem_cons_self
  have hmem : some g ∈ frames.take (s.taken + 1) := by
    rw [List.take_add_one, ← List.head?_drop, hd]
    simp
  have hp4 : ∀ j : Fin 512, (s.tables.clear k g).p4 root j = s.tables.p4 root j :=
    fun j => Tables.p4_clear hk hk0
  have hsame : SameTables s.tables (s.tables.clear k g)
      (· ∈ tables ++ (frames.take s.taken).filterMap id) := fun f hf =>
    Tables.sameTables_clear hk f fun heq => hu (List.mem_cons_of_mem root (heq ▸ hf))
  have hen := h.radix.entry_congr (fun j _ => hp4 j) hsame
  have hn := node_congr hen
  refine ⟨⟨?_, ?_, fun j hj => (hp4 j).trans (h.half j hj), ?_⟩, ?_, fun q hq hqu hg => ?_,
    fun p f hp hpu hat => ⟨(hn p hp hpu).trans hat.node_eq, ?_⟩⟩
  · rw [← List.tail_drop, hd]
    rfl
  · exact (h.radix.congr (fun j _ => hp4 j) hsame).mono (mem_tables_mono (Nat.le_succ _))
  · refine h.same.trans (Tables.sameTables_clear hk) (fun f hf => ?_)
      fun f hf hg => hf.2 (hg ▸ hmem)
    exact ⟨hf.1, fun hm => hf.2 (List.take_subset_take_left frames (Nat.le_succ _) hm)⟩
  · exact List.mem_append_right _ (List.mem_filterMap.mpr ⟨some g, hmem, rfl⟩)
  · rw [hn q hq hqu] at hg
    exact hu (h.radix.node_mem hq hqu hg)
  · rintro hw j q rfl
    rw [hen q j (Nat.le_of_succ_le hp) hpu]
    exact hat.writable hw j q rfl

/-- An unused entry is linked to the frame that the allocator gives. -/
theorem Sound.follow_none (hat : s.At root p f w)
    (hfresh : Fresh frames (root :: tables)) (hp : p.length ≤ 2) (hu : Way.User (i :: p))
    (hno : s.tables.level p.length f i = none) (hfr : s.frames = some g :: rest) :
    let s' : Walk :=
      ⟨(s.tables.clear (p.length + 1) g).edit p.length f i (some ⟨g, parentFlags w b⟩),
      rest, s.taken + 1⟩
    Sound t root tables frames view s' ∧ s'.At root (i :: p) g w := by
  obtain ⟨hfuser, hfw, hfnx, hfhuge⟩ := parentFlags_has
  obtain ⟨hs, hmem, hnew, hsame⟩ :=
    h.take (w := w) hfresh hfr (k := p.length + 1) (by omega) (by omega)
  have hno' : (s.tables.clear (p.length + 1) g).level p.length f i = none := by
    rw [Tables.level_clear (by omega) (by omega), if_neg (by omega), hno]
  refine hs.link (e := ⟨g, parentFlags w b⟩) (hsame p f (by omega) hu.tail hat) hp hu (fun j => ?_)
    (fun hed => hed.apart_of_new hs.radix.apart rfl hnew) hmem ⟨hfhuge, hfnx, hfuser⟩ ?_
  · rw [hno', Tables.level_clear (by omega) (by omega), if_pos ⟨rfl, rfl⟩, Option.bind_none]
  · rw [hno', hfw, Option.any_none, Bool.false_or]

theorem Sound.dry :
    Sound t root tables frames view ⟨s.tables, s.frames.tail, s.taken + 1⟩ where
  frames_eq := by rw [h.frames_eq, List.tail_drop]
  radix := h.radix.mono (mem_tables_mono (Nat.le_succ _))
  half := h.half
  same := fun f' hf' => h.same f'
    ⟨hf'.1, fun hmem => hf'.2 (List.take_subset_take_left frames (Nat.le_succ _) hmem)⟩

end

theorem follow_meets (hfr : Fresh frames (root :: tables)) (hp : p.length ≤ 2)
    (hu : Way.User (i :: p)) :
    Meets (fun s => Sound t root tables frames view s ∧ s.At root p f w)
      (follow p.length f i (parentFlags w b))
      (fun g s => Sound t root tables frames view s ∧ s.At root (i :: p) g w)
      (Sound t root tables frames view) := by
  rintro s ⟨h, hat⟩
  unfold follow
  cases he : s.tables.level p.length f i with
  | some e =>
    obtain ⟨hh, hs, hat'⟩ := h.follow_some hat hp hu he
    simp only [hh]
    exact ⟨hs, hat'⟩
  | none =>
    have hdry := h.dry
    cases hf : s.frames with
    | nil =>
      rw [hf] at hdry
      exact hdry
    | cons answer rest =>
      rw [hf] at hdry
      cases answer with
      | none => exact hdry
      | some g => exact h.follow_none hat hfr hp hu he hf

theorem wayOf_injective (hn : n < 2 ^ 35) (hn' : n' < 2 ^ 35)
    (h : (wayOf n).1 :: (wayOf n).2 = (wayOf n').1 :: (wayOf n').2) : n = n' := by
  simp only [wayOf, List.cons.injEq, Fin.mk.injEq] at h
  omega

theorem setLeaf_meets (hn : n < 2 ^ 35) (f pa : Nat) (w b : Bool) :
    Meets (fun s => Sound t root tables frames view s ∧ s.At root (wayOf n).2 f w)
      (setLeaf f (wayOf n).1 ⟨pa, PageFlags.toX86 (VmSpace.userFlags w b)⟩)
      (fun _ s => view n = none ∧
        Sound t root tables frames (update view n (some ⟨pa, w, b⟩)) s)
      (Sound t root tables frames view) := by
  rintro s ⟨h, hat⟩
  have hu : Way.User ((wayOf n).1 :: (wayOf n).2) := wayOf_user hn
  have hd : ¬ (wayOf n).2.length ≤ 2 := Nat.lt_irrefl 2 ∘ Nat.lt_of_succ_le
  have hvi := h.radix.view n hn
  rw [entry_of_node hat.node_eq] at hvi
  unfold setLeaf
  cases hno : s.tables.level 3 f (wayOf n).1 with
  | some e => exact h
  | none =>
    have hv : view n = none := by
      rw [hvi]
      exact congrArg (Option.map Leaf.of) hno
    obtain ⟨hfu, hl⟩ := leafFlags_has
    have he := Edited.of_edit (p := (wayOf n).2)
      (x := some ⟨pa, PageFlags.toX86 (VmSpace.userFlags w b)⟩) h.radix.apart
      (Nat.le_refl 3) hu hat.node_eq fun hlt => absurd hlt (Nat.lt_irrefl 3)
    refine ⟨hv, h.frames_eq, ?_, ?_, ?_⟩
    · refine he.radix h.radix (he.apart_of_same h.radix.apart ?_) (fun _ hf => hf) ?_ ?_ ?_ ?_ ?_
      · intro hlen
        exact absurd hlen hd
      · intro hlen
        exact absurd hlen hd
      · rintro _ ⟨⟩
        exact hfu
      · rintro _ ⟨⟩ hw i' p' hip
        refine hat.writable ?_ i' p' hip
        have := congrArg Leaf.writable hl
        exact this.symm.trans hw
      · intro hlen
        exact absurd hlen hd
      · intro k hk
        rcases eq_or_ne k n with rfl | hkn
        · rw [update_self, if_pos rfl, Option.map_some, hl]
        · rw [update_of_ne hkn, if_neg fun heq => hkn (wayOf_injective hk hn heq)]
          exact h.radix.view k hk
    · exact (h.edit hat.node_eq (Nat.le_refl 3) hu).1
    · exact (h.edit hat.node_eq (Nat.le_refl 3) hu).2

theorem wayOf_pageOf (va : Addr) :
    wayOf (pageOf va) = (p1Index va, [p2Index va, p3Index va, p4Index va]) := by
  have h1 : (wayOf (pageOf va)).1 = p1Index va := Fin.ext rfl
  have h2 : ⟨pageOf va / 2 ^ 9 % 512, Nat.mod_lt _ (by decide)⟩ = p2Index va :=
    Fin.ext (congrArg (· % 512) (Nat.div_div_eq_div_mul ..))
  have h3 : ⟨pageOf va / 2 ^ 18 % 512, Nat.mod_lt _ (by decide)⟩ = p3Index va :=
    Fin.ext (congrArg (· % 512) (Nat.div_div_eq_div_mul ..))
  have h4 : ⟨pageOf va / 2 ^ 27 % 512, Nat.mod_lt _ (by decide)⟩ = p4Index va :=
    Fin.ext (congrArg (· % 512) (Nat.div_div_eq_div_mul ..))
  exact Prod.ext h1 (by rw [wayOf, h2, h3, h4])

theorem pageOf_lt {va : Addr} (hva : va.toNat < VmSpace.userMax) : pageOf va < 2 ^ 35 := by
  unfold pageOf
  unfold VmSpace.userMax at hva
  omega

theorem mapTo_meets {va : Addr} (hf : Fresh frames (root :: tables))
    (hva : va.toNat < VmSpace.userMax) (pa : Nat) (w b : Bool) :
    Meets (Sound t root tables frames view)
      (mapTo root va pa (PageFlags.toX86 (VmSpace.userFlags w b)))
      (fun _ s => view (pageOf va) = none ∧
        Sound t root tables frames (update view (pageOf va) (some ⟨pa, w, b⟩)) s)
      (Sound t root tables frames view) := by
  have hn := pageOf_lt hva
  have hway := wayOf_pageOf va
  have hu := wayOf_user hn
  rw [hway] at hu
  have huser4 : Way.User [p4Index va] := hu
  have huser3 : Way.User [p3Index va, p4Index va] := hu
  intro s h
  have hs : s.At root [] root w := ⟨rfl, fun _ i q hq => nomatch hq⟩
  refine Meets.bind (P := fun s => Sound t root tables frames view s ∧ s.At root [] root w)
    (follow_meets hf (by decide) huser4) (fun p3 => ?_) s ⟨h, hs⟩
  refine Meets.bind (follow_meets hf (Nat.le_succ 1) huser3) fun p2 => ?_
  refine Meets.bind (follow_meets hf (Nat.le_refl 2) hu)
    fun p1 => ?_
  have hl := @setLeaf_meets t root view tables frames _ hn p1 pa w b
  rw [hway] at hl
  exact hl

end Walk

/-! ### It behaves as documented -/

namespace Radix

variable {t' : Tables} {va : Addr}

theorem empty (h : ∀ i : Fin 512, i.val < 256 → t.p4 root i = none) :
    Radix t root [] fun _ => none := by
  have hen : ∀ (q : Way) (j : Fin 512), Way.User (j :: q) → entry t root j q = none := by
    intro q
    induction q with
    | nil => exact fun j hj => h j hj
    | cons a q ih =>
      intro j hj
      rw [entry, node_cons, ih a hj.tail]
      rfl
  constructor
  case apart =>
    intro q q' f hlen _ hq _ hf _
    cases q with
    | nil => exact (List.length_eq_zero_iff.mp hlen.symm).symm
    | cons a q =>
      rw [node_cons, hen q a hq] at hf
      cases hf
  case mem => exact fun _ hu he => by cases (hen _ _ hu).symm.trans he
  case parent => exact fun _ hu he => by cases (hen _ _ hu).symm.trans he
  case user => exact fun _ hu he => by cases (hen _ _ hu).symm.trans he
  case writable => exact fun _ hu he => by cases (hen (_ :: _) _ hu).symm.trans he
  case view =>
    intro n hn
    rw [hen (wayOf n).2 (wayOf n).1 (wayOf_user hn)]
    rfl

theorem user_way (hva : va.toNat < VmSpace.userMax) :
    Way.User [p2Index va, p3Index va, p4Index va] := by
  have hu := wayOf_user (Walk.pageOf_lt hva)
  rwa [Walk.wayOf_pageOf va] at hu

section

variable (h : Radix t root tables view) (hva : va.toNat < VmSpace.userMax)

include h hva

theorem view_pageOf :
    view (pageOf va) =
      (entry t root (p1Index va) [p2Index va, p3Index va, p4Index va]).map Leaf.of := by
  have hv := h.view _ (Walk.pageOf_lt hva)
  rwa [Walk.wayOf_pageOf va] at hv

/-- A walk to a user address stops at a missing table, or goes through three entries, none
of which is that of a huge page. -/
theorem walk_cases :
    (node t root [p2Index va, p3Index va, p4Index va] = none ∧ Paging.access t root va = none ∧
        lastTable t root va = none) ∨
      ∃ e4 e3 e2, entry t root (p4Index va) [] = some e4 ∧
        entry t root (p3Index va) [p4Index va] = some e3 ∧
        entry t root (p2Index va) [p3Index va, p4Index va] = some e2 ∧
        Paging.access t root va = (t.p1 e2.addr (p1Index va)).map (fun e1 =>
          permits [e4, e3, e2, e1] (e1.addr + va.toNat % 2 ^ 12)) ∧
        lastTable t root va = some e2.addr := by
  have hu := user_way hva
  have huser3 : Way.User [p3Index va, p4Index va] := hu
  unfold Paging.access lastTable
  cases h4 : t.p4 root (p4Index va) with
  | none => exact .inl ⟨by simp [node, Tables.level, h4], rfl, rfl⟩
  | some e4 =>
    have he4 : entry t root (p4Index va) [] = some e4 := h4
    simp only [Option.bind_some]
    cases h3 : t.p3 e4.addr (p3Index va) with
    | none => exact .inl ⟨by simp [node, Tables.level, h4, h3], rfl, rfl⟩
    | some e3 =>
      have he3 : entry t root (p3Index va) [p4Index va] = some e3 := by
        rw [entry_of_node (node_of_entry he4)]
        exact h3
      have hhuge3 := (h.parent (by simp) huser3 he3).1
      simp only [Option.bind_some, hhuge3]
      cases h2 : t.p2 e3.addr (p2Index va) with
      | none => exact .inl ⟨by simp [node, Tables.level, h4, h3, h2], rfl, rfl⟩
      | some e2 =>
        have he2 : entry t root (p2Index va) [p3Index va, p4Index va] = some e2 := by
          rw [entry_of_node (node_of_entry he3)]
          exact h2
        have hhuge2 := (h.parent (by simp) hu he2).1
        simp only [Option.bind_some, hhuge2]
        exact .inr ⟨e4, e3, e2, he4, he3, he2, rfl, rfl⟩

theorem lastTable_eq :
    lastTable t root va = node t root [p2Index va, p3Index va, p4Index va] := by
  rcases h.walk_cases hva with ⟨hn, -, hl⟩ | ⟨e4, e3, e2, -, -, he2, -, hl⟩
  · rw [hn, hl]
  · rw [hl, node_of_entry he2]

theorem permits_eq
    {e4 e3 e2 e1 : Entry} {a : Nat} (he4 : entry t root (p4Index va) [] = some e4)
    (he3 : entry t root (p3Index va) [p4Index va] = some e3)
    (he2 : entry t root (p2Index va) [p3Index va, p4Index va] = some e2)
    (he1 : entry t root (p1Index va) [p2Index va, p3Index va, p4Index va] = some e1) :
    permits [e4, e3, e2, e1] (e1.addr + a) = (Leaf.of e1).at a := by
  have hu := user_way hva
  have huser3 : Way.User [p3Index va, p4Index va] := hu
  have huser4 : Way.User [p4Index va] := hu
  have hu4 := h.user (by simp) huser4 he4
  have hu3 := h.user (by simp) huser3 he3
  have hu2 := h.user (by simp) hu he2
  have hu1 := h.user (p := [p2Index va, p3Index va, p4Index va]) (by simp) hu he1
  have hnx4 := (h.parent (by simp) huser4 he4).2
  have hnx3 := (h.parent (by simp) huser3 he3).2
  have hnx2 := (h.parent (by simp) hu he2).2
  cases hw : e1.has PageFlags.writable with
  | false => simp [permits, Leaf.at, Leaf.of, hw, hu1, hu2, hu3, hu4, hnx2, hnx3, hnx4]
  | true =>
    -- a writable leaf has writable entries above it
    obtain ⟨e2', he2', hw2⟩ := h.writable (by simp) hu he1 hw
    obtain rfl := Option.mem_unique he2 he2'
    obtain ⟨e3', he3', hw3⟩ := h.writable (by simp) huser3 he2 hw2
    obtain rfl := Option.mem_unique he3 he3'
    obtain ⟨e4', he4', hw4⟩ := h.writable (by simp) huser4 he3 hw3
    obtain rfl := Option.mem_unique he4 he4'
    simp [permits, Leaf.at, Leaf.of, hw, hw2, hw3, hw4, hu1, hu2, hu3, hu4, hnx2, hnx3, hnx4]

theorem access :
    access t root va = (view (pageOf va)).map fun leaf => leaf.at (va.toNat % 0x1000) := by
  rw [h.view_pageOf hva]
  rcases h.walk_cases hva with ⟨hn, ha, -⟩ | ⟨e4, e3, e2, he4, he3, he2, ha, -⟩
  · rw [ha, entry, hn]
    rfl
  · have he1 : entry t root (p1Index va) [p2Index va, p3Index va, p4Index va] =
        t.p1 e2.addr (p1Index va) := by
      rw [entry_of_node (node_of_entry he2)]
      rfl
    rw [ha, he1]
    cases h1 : t.p1 e2.addr (p1Index va) with
    | none => rfl
    | some e1 =>
      rw [h1] at he1
      exact congrArg some (h.permits_eq hva he4 he3 he2 he1)

theorem unmap {e : Entry}
    (hl : lastTable t root va = some f) (he : t.p1 f (p1Index va) = some e) :
    view (pageOf va) = some (Leaf.of e) ∧
      Radix (t.edit 3 f (p1Index va) none) root tables (update view (pageOf va) none) := by
  have hu := user_way hva
  rw [h.lastTable_eq hva] at hl
  have hen : entry t root (p1Index va) [p2Index va, p3Index va, p4Index va] = some e := by
    rw [entry_of_node hl]
    exact he
  have hed := Edited.of_edit (i := p1Index va) (p := [p2Index va, p3Index va, p4Index va])
    (x := none) h.apart (Nat.le_refl 3) hu hl fun hlt => absurd hlt (Nat.lt_irrefl 3)
  have hd : ¬ [p2Index va, p3Index va, p4Index va].length ≤ 2 := by simp
  constructor
  · rw [h.view_pageOf hva, hen]
    rfl
  · refine hed.radix h (hed.apart_of_same h.apart fun hlen => absurd hlen hd)
      (fun _ hf => hf) (fun hlen => absurd hlen hd) (fun _ hx => nomatch hx)
      (fun _ hx => nomatch hx) (fun hlen => absurd hlen hd) ?_
    intro n hn
    by_cases hp : n = pageOf va
    · subst hp
      rw [update_self, Walk.wayOf_pageOf, if_pos rfl]
      rfl
    · rw [update_of_ne hp, if_neg, h.view n hn]
      intro heq
      apply hp
      apply Walk.wayOf_injective hn (Walk.pageOf_lt hva)
      rw [heq, Walk.wayOf_pageOf]

end

end Radix

theorem Walk.sound_start (h : Radix t root tables view) :
    Walk.Sound t root tables frames view ⟨t, frames, 0⟩ where
  frames_eq := rfl
  radix := by simpa using h
  half := fun _ _ => rfl
  same := fun _ _ => ⟨rfl, rfl, rfl⟩

theorem radix_mapTo {va : Addr} (h : Radix t root tables view)
    (hva : va.toNat < VmSpace.userMax) (hfr : Fresh frames (root :: tables)) (pa : Nat)
    (w b : Bool) :
    let out := radix.mapTo t root .size4KiB va pa (PageFlags.toX86 (VmSpace.userFlags w b)) frames
    let s : Walk := ⟨out.tables, frames.drop out.taken, out.taken⟩
    (out.result = .ok () ∧ view (pageOf va) = none ∧
        Walk.Sound t root tables frames (update view (pageOf va) (some ⟨pa, w, b⟩)) s) ∨
      (∃ e, out.result = .error e) ∧ Walk.Sound t root tables frames view s := by
  have hm := Walk.mapTo_meets hfr hva pa w b _ (Walk.sound_start h)
  cases hrun : Walk.mapTo root va pa (PageFlags.toX86 (VmSpace.userFlags w b)) ⟨t, frames, 0⟩ with
  | mk r s =>
    rw [hrun] at hm
    simp only [radix, hrun]
    cases r with
    | ok =>
      obtain ⟨hn, hs⟩ := hm
      have hf := hs.frames_eq
      exact .inl ⟨rfl, hn, hf ▸ hs⟩
    | error e =>
      have hf := hm.frames_eq
      exact .inr ⟨⟨e, rfl⟩, hf ▸ hm⟩

end Mapping

/-! ### Top-level entries -/

section TopLevel

variable {k f r : Nat} {j : Fin 512} {flags : BitVec 64} {P : Option Entry → Prop}

/-- A step of the descent adds flags to the entry that it follows, and links a table only where
there is none; other top-level entries stay as they are. -/
theorem Walk.follow_keeps (hk : k ≤ 2) (hP : k = 0 ∧ r = f ∧ j = i →
    (∀ e, P (some e) → P (some ⟨e.addr, e.flags ||| flags⟩)) ∧ ¬ P none) :
    Attempt.Keeps (fun s => P (s.tables.p4 r j)) (follow k f i flags) := by
  refine Attempt.keeps_of_state fun s hs => ?_
  have hedit : ∀ (t : Tables) x, (t.edit k f i x).p4 r j =
      if 0 = k ∧ r = f ∧ j = i then x else t.p4 r j := by
    intro t x
    change (t.edit k f i x).level 0 r j = _
    rw [Tables.level_edit (Nat.le_succ_of_le hk) (by decide)]
    rfl
  unfold follow
  split
  · rename_i e he
    have hgoal : P ((s.tables.edit k f i (some ⟨e.addr, e.flags ||| flags⟩)).p4 r j) := by
      rw [hedit]
      split
      · rename_i hat
        obtain ⟨rfl, rfl, rfl⟩ := hat
        exact (hP ⟨rfl, rfl, rfl⟩).1 e (he ▸ hs)
      · exact hs
    simp only
    split
    · exact hgoal
    · exact hgoal
  · rename_i he
    split
    · simp only [hedit]
      split
      · rename_i hat
        obtain ⟨rfl, rfl, rfl⟩ := hat
        exact absurd (he ▸ hs) (hP ⟨rfl, rfl, rfl⟩).2
      · rwa [Tables.p4_clear (Nat.succ_le_succ hk) (Nat.succ_ne_zero k)]
    · exact hs

theorem Walk.mapTo_keeps {va : Addr} (pa : Nat) (hP : r = root ∧ j = p4Index va →
    (∀ e, P (some e) → P (some ⟨e.addr, e.flags ||| flags &&& 7#64⟩)) ∧ ¬ P none) :
    Attempt.Keeps (fun s => P (s.tables.p4 r j)) (mapTo root va pa flags) := by
  refine Attempt.Meets.bind (follow_keeps (by decide) fun h => hP h.2) fun p3 => ?_
  refine Attempt.Meets.bind (follow_keeps (by decide) fun h => absurd h.1 (by decide)) fun p2 => ?_
  refine Attempt.Meets.bind (follow_keeps (by decide) fun h => absurd h.1 (by decide)) fun p1 => ?_
  refine Attempt.keeps_of_state fun s hs => ?_
  unfold setLeaf
  split
  · exact hs
  · exact hs

theorem radix_lawful : radix.Lawful where
  mapTo_elsewhere := by
    intro t root size va pa flags frames r i _ hne
    cases size with
    | size4KiB =>
      refine (Walk.mapTo_keeps (P := fun x => x = t.p4 r i) pa fun hat => ?_).state rfl
      exact absurd hat (not_and_or.mpr hne)
    | size2MiB => rfl
  mapTo_present := by
    intro t root size va pa flags frames e _ he
    cases size with
    | size4KiB =>
      refine (Walk.mapTo_keeps (P := fun x => ∃ flags', x = some ⟨e.addr, flags'⟩) pa
        fun _ => ⟨fun e' he' => ?_, by simp⟩).state ⟨e.flags, he⟩
      obtain ⟨flags', heq⟩ := he'
      cases heq
      exact ⟨_, rfl⟩
    | size2MiB => exact ⟨e.flags, he⟩
  unmap_p4 := by
    intro t root va
    simp only [radix]
    split
    · rfl
    · split <;> rfl

end TopLevel

theorem radix_documented : radix.Documented Radix where
  empty := Radix.empty
  congr := fun h hp4 hsa => h.congr hp4 hsa
  access := fun h hva => h.access hva
  mapTo_ok := by
    intro t root tables view va pa w x frames h hva _ _ hf out hok
    rcases radix_mapTo h hva hf pa w x with ⟨-, hn, hs⟩ | ⟨⟨e, he⟩, -⟩
    · exact ⟨hn, hs.radix⟩
    · rw [hok] at he
      cases he
  mapTo_error := by
    intro t root tables view va pa w x frames h hva _ _ hf out e he
    rcases radix_mapTo h hva hf pa w x with ⟨hok, -⟩ | ⟨-, hs⟩
    · rw [hok] at he
      cases he
    · exact hs.radix
  mapTo_elsewhere := by
    intro t root tables view va pa w x frames h hva _ _ hf out
    rcases radix_mapTo h hva hf pa w x with ⟨-, -, hs⟩ | ⟨-, hs⟩
    · exact ⟨hs.half, hs.same⟩
    · exact ⟨hs.half, hs.same⟩
  unmap_ok := by
    intro t t' root tables view va pa h hva _ hrun
    simp only [radix] at hrun
    split at hrun
    · cases hrun
    · rename_i f hl
      split at hrun
      · cases hrun
      · rename_i e he
        obtain ⟨hv, hr⟩ := h.unmap hva hl he
        cases hrun
        exact ⟨Leaf.of e, hv, rfl, hr⟩
  unmap_error := by
    intro t t' root tables view va e h hva _ hrun
    simp only [radix] at hrun
    split at hrun
    · cases hrun
      exact h
    · split at hrun
      · cases hrun
        exact h
      · cases hrun
  unmap_elsewhere := by
    intro t root va
    simp only [radix]
    split
    · exact ⟨rfl, rfl, rfl, fun _ => .inl rfl⟩
    · rename_i f hl
      split
      · exact ⟨rfl, rfl, rfl, fun _ => .inl rfl⟩
      · refine ⟨rfl, rfl, rfl, fun g => ?_⟩
        by_cases hg : g = f
        · right
          rw [hl, hg]
        · left
          exact (Tables.sameTables_edit (Nat.le_refl 3) g (.inr hg)).2.2

end Qunix.Paging
