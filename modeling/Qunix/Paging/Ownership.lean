/-
Which frames an address space gives back.

`owned` lists the frames that the allocator handed out in the calls made on behalf of the
space, in order: `Owns` is kept by every operation, however it ends. Tables that are
reached through the entries from 256 on are the kernel's; no operation on the user half
changes them, and a permission change of a kernel page clears at most an entry
of the last of them. Pages of the kernel half are not considered, since the direct
map is there and maps all memory.
-/

import Qunix.Paging.UserSpace

namespace Qunix.Paging

open Function Qunix.Lib Qunix.Lib.Attempt

/-! ### Tables of the kernel half -/

/-- A table, with its level, that a root's entries from 256 on lead to. -/
inductive SharedTable (t : Tables) (root : Nat) : Nat → Nat → Prop where
  | p3 {i : Fin 512} {e : Entry} : 256 ≤ i.val → t.p4 root i = some e → SharedTable t root 3 e.addr
  | p2 {f : Nat} {i : Fin 512} {e : Entry} : SharedTable t root 3 f → t.p3 f i = some e →
      e.huge = false → SharedTable t root 2 e.addr
  | p1 {f : Nat} {i : Fin 512} {e : Entry} : SharedTable t root 2 f → t.p2 f i = some e →
      e.huge = false → SharedTable t root 1 e.addr

variable {t : Tables} {root f : Nat}

theorem SharedTable.of_same {t' : Tables} {level : Nat} {among : Nat → Prop}
    (hha : ∀ i : Fin 512, 256 ≤ i.val → t'.p4 root i = t.p4 root i)
    (hsa : ∀ f, among f → t'.p3 f = t.p3 f ∧ t'.p2 f = t.p2 f)
    (hs : ∀ {level f}, SharedTable t root level f → among f) (h : SharedTable t' root level f) :
    SharedTable t root level f := by
  induction h with
  | p3 hi he =>
    rw [hha _ hi] at he
    exact .p3 hi he
  | p2 _ he hh ih =>
    rw [(hsa _ (hs ih)).1] at he
    exact .p2 ih he hh
  | p1 _ he hh ih =>
    rw [(hsa _ (hs ih)).2] at he
    exact .p1 ih he hh

/-- The last table on the way to a kernel address is shared. -/
theorem SharedTable.of_lastTable {va : Addr} (hva : 256 ≤ (p4Index va).val)
    (h : lastTable t root va = some f) : SharedTable t root 1 f := by
  simp only [lastTable, Option.bind_eq_some_iff] at h
  obtain ⟨e4, he4, e3, he3, h⟩ := h
  split_ifs at h with hhuge3
  obtain ⟨e2, he2, h⟩ := Option.bind_eq_some_iff.mp h
  split_ifs at h with hhuge2
  cases h
  have hp3 := SharedTable.p3 hva he4
  have hp2 := SharedTable.p2 hp3 he3 (Bool.not_eq_true _ ▸ hhuge3)
  exact .p1 hp2 he2 (Bool.not_eq_true _ ▸ hhuge2)

/-! ### Ownership -/

namespace Space

variable {m : Mapper} {Maps : Tables → Nat → List Nat → View → Prop} {s : Space} {view : View}
  {va : Addr} {pa : Nat} {w x : Bool}

/-- Mapping a user page leaves the kernel half of the root and everybody else's tables alone. -/
theorem mapUser_elsewhere (h : Sound Maps s view) (hm : m.Documented Maps) (va : Addr) (pa : Nat)
    (w x : Bool) :
    (∀ i : Fin 512, 256 ≤ i.val →
        (mapUser m va pa w x s).2.tables.p4 s.rootPa i = s.tables.p4 s.rootPa i) ∧
      SameTables s.tables (mapUser m va pa w x s).2.tables
        fun f => f ∉ s.owned ∧ some f ∉ s.answers := by
  by_cases ha : UserPage va ∧ pa % 0x1000 = 0
  case neg =>
    obtain ⟨e, heq⟩ := mapUser_refused m w x s ha
    rw [heq]
    exact ⟨fun _ _ => rfl, fun _ _ => ⟨rfl, rfl, rfl⟩⟩
  case pos =>
    obtain ⟨hva, hpa⟩ := ha
    obtain ⟨tables, hma, hown⟩ := h.maps
    have he := hm.mapTo_elsewhere (w := w) (x := x) hma hva.lt_max hva.aligned hpa
      (h.fresh_for hown)
    rw [mapUser_eq hva hpa]
    refine ⟨he.1, fun f hf => he.2 f ⟨fun hmem => hf.1 (hown f hmem), fun hmem => ?_⟩⟩
    exact hf.2 (some_mem_of_map_allocateFrame (List.mem_of_mem_take hmem))

/-- An address `VirtAddr::new` accepts. -/
def Canonical (va : Addr) : Prop := va.toNat < VmSpace.userMax ∨ 0xffff800000000000 ≤ va.toNat

instance (va : Addr) : Decidable (Canonical va) := inferInstanceAs (Decidable (_ ∨ _))

/-- The space owns what the allocator answered from `start` on, and shares the kernel
half with the root it was made from. -/
structure Owns (Maps : Tables → Nat → List Nat → View → Prop) (start : List (Option Nat))
    (half : Fin 512 → Option Entry) (s : Space) : Prop where
  sound : ∃ view, Sound Maps s view
  used : ∃ used, start = used ++ s.answers ∧ s.owned = used.filterMap id
  half : ∀ i : Fin 512, 256 ≤ i.val → s.tables.p4 s.rootPa i = half i
  shared : ∀ {level f}, SharedTable s.tables s.rootPa level f → some f ∉ start

namespace Owns

variable {start : List (Option Nat)} {half : Fin 512 → Option Entry} {f : Nat}

section

variable (h : Owns Maps start half s)

include h

theorem mem_start (hf : f ∈ s.owned) : some f ∈ start := by
  obtain ⟨used, hs, ho⟩ := h.used
  rw [ho] at hf
  obtain ⟨answer, ha, rfl⟩ := List.mem_filterMap.mp hf
  rw [hs]
  exact List.mem_append_left _ ha

/-- A shared table is neither owned nor will it be handed out. -/
theorem shared_apart {level : Nat}
    (hf : SharedTable s.tables s.rootPa level f) : f ∉ s.owned ∧ some f ∉ s.answers := by
  have hs := h.shared hf
  obtain ⟨used, heq, -⟩ := h.used
  constructor
  · intro hmem
    exact hs (h.mem_start hmem)
  · intro hmem
    rw [heq] at hs
    exact hs (List.mem_append_right _ hmem)

theorem mapUser (hm : m.Documented Maps) :
    Owns Maps start half (Space.mapUser m va pa w x s).2 := by
  obtain ⟨view, hs⟩ := h.sound
  obtain ⟨hh, hsa⟩ := mapUser_elsewhere hs hm va pa w x
  constructor
  case sound =>
    rcases hs.mapUser hm va pa w x with ⟨-, -, -, -, hs⟩ | ⟨-, hs⟩
    · exact ⟨_, hs⟩
    · exact ⟨_, hs⟩
  case used =>
    obtain ⟨used, hst, ho⟩ := h.used
    refine ⟨used ++ s.answers.take (s.calls m va pa w x), ?_, ?_⟩
    · rw [hst, List.append_assoc]
      exact congrArg _ (List.take_append_drop _ _).symm
    · rw [List.filterMap_append, ← ho]
      rfl
  case half =>
    intro i hi
    exact (hh i hi).trans (h.half i hi)
  case shared =>
    intro level f hf
    have ht := fun f hf => And.intro (hsa f hf).1 (hsa f hf).2.1
    exact h.shared (hf.of_same hh ht h.shared_apart)

theorem claim {answers : List (Option Nat)}
    (ha : s.answers = some pa :: answers) : Owns Maps start half (s.claim pa answers) where
  sound := by
    obtain ⟨view, hso⟩ := h.sound
    exact ⟨view, hso.claim ha⟩
  used := by
    obtain ⟨used, hs, ho⟩ := h.used
    refine ⟨used ++ [some pa], ?_, ?_⟩
    · rw [hs, ha, List.append_assoc]
      rfl
    · rw [List.filterMap_append, ← ho]
      rfl
  half := h.half
  shared := h.shared

theorem skip (hn : ∀ pa answers, s.answers ≠ some pa :: answers) :
    Owns Maps start half { s with answers := s.answers.tail } where
  sound := by
    obtain ⟨view, hs⟩ := h.sound
    refine ⟨view, hs.maps, hs.root_owned, ?_⟩
    have hfr := hs.fresh
    cases ha : s.answers with
    | nil =>
      rw [ha] at hfr
      exact hfr
    | cons answer answers =>
      rw [ha] at hfr
      exact hfr.tail.subset fun f hf => List.mem_append_left _ hf
  used := by
    obtain ⟨used, hst, ho⟩ := h.used
    cases ha : s.answers with
    | nil => exact ⟨used, by rw [hst, ha]; rfl, ho⟩
    | cons answer answers =>
      cases answer with
      | none =>
        refine ⟨used ++ [none], ?_, ?_⟩
        · rw [hst, ha, List.append_assoc]
          rfl
        · rw [List.filterMap_append, ← ho]
          exact (List.append_nil _).symm
      | some pa => exact absurd ha (hn pa answers)
  half := h.half
  shared := h.shared

theorem mapNewPage (hm : m.Documented Maps) :
    Owns Maps start half (Space.mapNewPage m va w x s).2 := by
  by_cases hf : ∃ pa answers, s.answers = some pa :: answers
  case neg =>
    simp only [not_exists] at hf
    rw [mapNewPage_of_none hf]
    exact h.skip hf
  case pos =>
    obtain ⟨pa, answers, ha⟩ := hf
    rw [mapNewPage_of_some ha]
    exact (h.claim ha).mapUser hm

/-- The tables of a kernel address are not those of the user half. -/
theorem unmap (hm : m.Documented Maps) (hva : Canonical va) :
    Owns Maps start half (Space.unmap m va s).2 := by
  obtain ⟨view, hs⟩ := h.sound
  simp only [Space.unmap, AddressSpace.unmap]
  split
  · exact h
  · obtain ⟨hp4, hp3, hp2, hp1⟩ := @hm.unmap_elsewhere s.tables s.rootPa va
    constructor
    case sound =>
      rcases hva with hva | hva
      · rename_i hal
        rcases hs.unmap hm hva with ⟨leaf, -, -, hs⟩ | ⟨-, hs⟩
        · exact ⟨_, by simpa [Space.unmap, AddressSpace.unmap, if_neg hal] using hs⟩
        · exact ⟨_, by simpa [Space.unmap, AddressSpace.unmap, if_neg hal] using hs⟩
      · have hin : 256 ≤ (p4Index va).val := by
          simp only [p4Index, index]
          omega
        obtain ⟨tables, hma, hown⟩ := hs.maps
        refine ⟨view, ⟨tables, hm.congr hma (fun i _ => by rw [hp4]) fun f hf => ?_, hown⟩,
          hs.root_owned, hs.fresh⟩
        refine ⟨by rw [hp3], by rw [hp2], (hp1 f).resolve_right fun hl => ?_⟩
        exact (h.shared_apart (SharedTable.of_lastTable hin hl.symm)).1 (hown f hf)
    case used => exact h.used
    case half =>
      intro i hi
      rw [← h.half i hi, ← hp4]
    case shared =>
      intro level f hf
      have hsa : ∀ f : Nat, True → _ ∧ _ := fun f _ => ⟨congrFun hp3 f, congrFun hp2 f⟩
      exact h.shared (hf.of_same (fun i _ => by rw [← hp4]) hsa fun _ => trivial)

theorem setPermissions (hm : m.Documented Maps) (hva : Canonical va) :
    Owns Maps start half (Space.setPermissions m va w x s).2 := by
  have hk : Keeps (Owns Maps start half) (Space.setPermissions m va w x) :=
    Meets.bind (keeps_of_state fun s h => h.unmap hm hva) fun pa =>
      keeps_of_state fun s h => h.mapUser hm
  exact hk.state h

end

theorem new {kernelRoot : Nat} {mach : Machine} (hm : m.Documented Maps)
    (hn : (mach.answers.filterMap id).Nodup) (hk : some kernelRoot ∉ mach.answers)
    (hs : ∀ {level f}, SharedTable mach.tables kernelRoot level f → some f ∉ mach.answers)
    (hnew : Space.new kernelRoot mach = some s) :
    Owns Maps mach.answers (mach.tables.p4 kernelRoot) s := by
  obtain ⟨ha, ho, ht⟩ := new_eq_some hnew
  have hne : kernelRoot ≠ s.rootPa := by
    rintro rfl
    rw [ha] at hk
    exact hk List.mem_cons_self
  have hha : ∀ i : Fin 512, 256 ≤ i.val →
      s.tables.p4 s.rootPa i = mach.tables.p4 kernelRoot i := by
    intro i hi
    rw [ht]
    simp [VmSpace.new, AddressSpace.copyKernelHalf, hi, update_of_ne hne]
  constructor
  case sound => exact ⟨_, sound_new hm hn hnew⟩
  case used => exact ⟨[some s.rootPa], ha, ho⟩
  case half => exact hha
  case shared =>
    -- the tables below the entries are those of the kernel's root
    have hsa : ∀ {level f}, SharedTable s.tables s.rootPa level f →
        SharedTable mach.tables kernelRoot level f := by
      intro level f hf
      induction hf with
      | p3 hi he =>
        rw [hha _ hi] at he
        exact .p3 hi he
      | p2 _ he hh ih =>
        rw [ht] at he
        exact .p2 ih he hh
      | p1 _ he hh ih =>
        rw [ht] at he
        exact .p1 ih he hh
    intro level f hf
    exact hs (hsa hf)

theorem withMem (h : Owns Maps start half s) (mem : Nat → UInt8) :
    Owns Maps start half { s with mem := mem } := by
  obtain ⟨view, hs⟩ := h.sound
  exact { h with sound := ⟨view, hs.maps, hs.root_owned, hs.fresh⟩ }

end Owns

/-! ### The life of a space -/

/-- The calls that change a space. -/
inductive Call where
  | mapUser (va : Addr) (pa : Nat) (writable executable : Bool)
  | mapNewPage (va : Addr) (writable executable : Bool)
  | setPermissions (va : Addr) (writable executable : Bool)

/-- The space after a call, successful or not. -/
def call (m : Mapper) (s : Space) : Call → Space
  | .mapUser va pa writable executable => (mapUser m va pa writable executable s).2
  | .mapNewPage va writable executable => (mapNewPage m va writable executable s).2
  | .setPermissions va writable executable => (setPermissions m va writable executable s).2

/-- `VirtAddr::new` does not panic. -/
def Call.Proper : Call → Prop
  | .setPermissions va _ _ => Canonical va
  | _ => True

instance : DecidablePred Call.Proper
  | .mapUser _ _ _ _ => isTrue trivial
  | .mapNewPage _ _ _ => isTrue trivial
  | .setPermissions va _ _ => inferInstanceAs (Decidable (Canonical va))

variable {start : List (Option Nat)} {half : Fin 512 → Option Entry}

theorem Owns.calls (h : Owns Maps start half s) (hm : m.Documented Maps) {calls : List Call}
    (hca : ∀ c ∈ calls, c.Proper) : Owns Maps start half (calls.foldl (call m) s) := by
  induction calls generalizing s with
  | nil => exact h
  | cons c calls ih =>
    have hc := hca c List.mem_cons_self
    apply ih _ fun c' hc' => hca c' (List.mem_cons_of_mem c hc')
    cases c with
    | mapUser => exact h.mapUser hm
    | mapNewPage => exact h.mapNewPage hm
    | setPermissions => exact h.setPermissions hm hc

/-- Dropping the space, on a CPU that runs on somebody else's tables, frees the
frames that the allocator handed out from `start` on, each once, and no frame that is
a table of the kernel half or that somebody else holds. -/
def Conserves (start : List (Option Nat)) (held : Nat → Prop) (s : Space) : Prop :=
  ∀ active, held active → ∃ used freed, s.drop active = some freed ∧
    start = used ++ s.answers ∧ freed.Perm (used.filterMap id) ∧ freed.Nodup ∧
    ∀ f ∈ freed, (∀ level, ¬ SharedTable s.tables s.rootPa level f) ∧ ¬ held f

theorem Owns.conserves (h : Owns Maps start half s) (hn : (start.filterMap id).Nodup)
    {held : Nat → Prop} (hh : ∀ f, held f → some f ∉ start) : Conserves start held s := by
  intro active ha
  obtain ⟨view, hso⟩ := h.sound
  obtain ⟨used, hs, ho⟩ := h.used
  have hr : active ≠ s.rootPa := by
    rintro rfl
    exact hh _ ha (h.mem_start hso.root_owned)
  refine ⟨used, s.owned.reverse, by rw [drop, if_neg hr], hs, ?_, ?_, ?_⟩
  · rw [ho]
    exact List.reverse_perm _
  · rw [hs, List.filterMap_append] at hn
    rw [(List.reverse_perm s.owned).nodup_iff, ho]
    exact (List.nodup_append.mp hn).1
  · intro f hf
    have hf := List.mem_reverse.mp hf
    constructor
    · intro level hsh
      exact (h.shared_apart hsh).1 hf
    · intro hfh
      exact hh f hfh (h.mem_start hf)

end Space

end Qunix.Paging
