/-
User memory: the pages a program sees and the bytes in them.

This is what an address space is for, without frames and tables. `Shows` relates a
`Space` to it; each operation of `Space` that succeeds does one thing to the pages:
`map_new_page` adds a page of zeros, `set_permissions` keeps the bytes of a page, and a
copy through the direct map changes the bytes at its address and no others, since
no two pages share a frame.
-/

import Qunix.Paging.UserSpace

namespace Qunix.Paging

open Function Qunix.Lib

/-- A page: what user code may do with it, and its bytes by offset. -/
structure Page where
  writable : Bool
  executable : Bool
  bytes : Nat → UInt8

/-- The pages of a program, by page number. -/
abbrev UserMemory := Nat → Option Page

/-- A mapped page has the permissions and the bytes of the page it stands for. -/
inductive SamePage (mem : Nat → UInt8) : Option Leaf → Option Page → Prop where
  | unmapped : SamePage mem none none
  | mapped {leaf : Leaf} {page : Page} (writable : leaf.writable = page.writable)
      (executable : leaf.executable = page.executable)
      (bytes : ∀ o < 0x1000, mem (leaf.frame + o) = page.bytes o) :
      SamePage mem (some leaf) (some page)

variable {mem : Nat → UInt8} {leaf? : Option Leaf} {page? : Option Page}

theorem SamePage.congr {mem' : Nat → UInt8} (h : SamePage mem leaf? page?)
    (hmem : ∀ leaf, leaf? = some leaf → ∀ o < 0x1000,
      mem' (leaf.frame + o) = mem (leaf.frame + o)) :
    SamePage mem' leaf? page? := by
  cases h with
  | unmapped => exact .unmapped
  | mapped hw hx hb =>
    apply SamePage.mapped hw hx
    intro o ho
    rw [hmem _ rfl o ho]
    exact hb o ho

theorem SamePage.exists_leaf {page : Page} (h : SamePage mem leaf? (some page)) :
    ∃ leaf : Leaf, leaf? = some leaf ∧
      leaf.writable = page.writable ∧ leaf.executable = page.executable ∧
      ∀ o < 0x1000, mem (leaf.frame + o) = page.bytes o := by
  cases h with
  | mapped hw hx hb => exact ⟨_, rfl, hw, hx, hb⟩

theorem SamePage.exists_page {leaf : Leaf} (h : SamePage mem (some leaf) page?) :
    ∃ page : Page, page? = some page ∧
      ∀ o < 0x1000, mem (leaf.frame + o) = page.bytes o := by
  cases h with
  | mapped hw hx hb => exact ⟨_, rfl, hb⟩

namespace Space

/-- The space gives a program these pages. The frames behind them are whole frames of
the space's own, one for each page. -/
structure ShowsVia (Maps : Tables → Nat → List Nat → View → Prop) (s : Space) (image : UserMemory)
    (view : View) : Prop extends Sound Maps s view where
  owned : ∀ {n leaf}, view n = some leaf → leaf.frame ∈ s.owned
  aligned : ∀ {n leaf}, view n = some leaf → leaf.frame % 0x1000 = 0
  inj : ∀ {n n' leaf leaf'}, view n = some leaf → view n' = some leaf' →
    leaf.frame = leaf'.frame → n = n'
  pages : ∀ n, SamePage s.mem (view n) (image n)

def Shows (Maps : Tables → Nat → List Nat → View → Prop) (image : UserMemory) (s : Space) : Prop :=
  ∃ view, ShowsVia Maps s image view

variable {m : Mapper} {Maps : Tables → Nat → List Nat → View → Prop} {s : Space} {view : View}
  {image : UserMemory} {va : Addr} {pa n : Nat} {w x : Bool}

theorem frames_apart {f f' o : Nat} (hf : f % 0x1000 = 0) (hf' : f' % 0x1000 = 0) (hne : f ≠ f')
    (ho : o < 0x1000) : f + o < f' ∨ f' + 0x1000 ≤ f + o := by omega

namespace ShowsVia

variable (h : ShowsVia Maps s image view)

include h

theorem isSome_view : (view n).isSome = (image n).isSome := by
  have hp := h.pages n
  generalize view n = leaf?, image n = page? at hp ⊢
  cases hp <;> rfl

theorem translate (hm : m.Documented Maps)
    (hva : va.toNat < VmSpace.userMax) :
    s.translate va = (view (pageOf va)).map fun leaf => leaf.frame + va.toNat % 0x1000 := by
  obtain ⟨tables, hma, -⟩ := h.maps
  rw [Space.translate, translate_eq_access, hm.access hma hva]
  cases view (pageOf va) <;> rfl

/-- A page that is added, with a frame that no other page has. -/
theorem insert {s' : Space} {leaf : Leaf} {page : Page}
    (hs : Sound Maps s' (update view n (some leaf))) (how : ∀ f ∈ s.owned, f ∈ s'.owned)
    (hmem : ∀ f ∈ s.owned, f % 0x1000 = 0 → f ≠ leaf.frame →
      ∀ o < 0x1000, s'.mem (f + o) = s.mem (f + o))
    (hl : leaf.frame ∈ s'.owned) (hal : leaf.frame % 0x1000 = 0)
    (ho : ∀ {n' leaf'}, n' ≠ n → view n' = some leaf' → leaf'.frame ≠ leaf.frame)
    (hp : SamePage s'.mem (some leaf) (some page)) :
    ShowsVia Maps s' (update image n (some page)) (update view n (some leaf)) where
  toSound := hs
  owned := by
    intro n' leaf' hv
    rw [update_apply] at hv
    split_ifs at hv with hn
    · cases hv
      exact hl
    · exact how _ (h.owned hv)
  aligned := by
    intro n' leaf' hv
    rw [update_apply] at hv
    split_ifs at hv with hn
    · cases hv
      exact hal
    · exact h.aligned hv
  inj := by
    intro n₁ n₂ leaf₁ leaf₂ h₁ h₂ hf
    rcases eq_or_ne n₁ n with rfl | hn₁
    · rw [update_self] at h₁
      cases h₁
      by_contra hne
      rw [update_of_ne (Ne.symm hne)] at h₂
      exact ho (Ne.symm hne) h₂ hf.symm
    · rw [update_of_ne hn₁] at h₁
      rw [update_apply] at h₂
      split_ifs at h₂ with hn₂
      · cases h₂
        exact absurd hf (ho hn₁ h₁)
      · exact h.inj h₁ h₂ hf
  pages := by
    intro n'
    rcases eq_or_ne n' n with rfl | hn
    · rw [update_self, update_self]
      exact hp
    · rw [update_of_ne hn, update_of_ne hn]
      apply (h.pages n').congr
      intro leaf' hv
      exact hmem _ (h.owned hv) (h.aligned hv) (ho hn hv)

end ShowsVia

open Attempt

/-- A new page is zero; it was not there before. -/
theorem mapNewPage_shows (hm : m.Documented Maps) :
    Ensures (Shows Maps image) (mapNewPage m va w x) fun _ s =>
      UserPage va ∧ image (pageOf va) = none ∧
        Shows Maps (update image (pageOf va) (some ⟨w, x, fun _ => 0⟩)) s := by
  apply ensures_of_run
  rintro s ⟨view, h⟩ pa' s' heq
  by_cases hfr : ∃ pa answers, s.answers = some pa :: answers
  case neg =>
    simp only [not_exists] at hfr
    rw [mapNewPage_of_none hfr] at heq
    cases heq
  case pos =>
    obtain ⟨pa, answers, ha⟩ := hfr
    rw [mapNewPage_of_some ha] at heq
    obtain ⟨hr, rfl⟩ := Prod.mk.inj heq
    have hc := h.toSound.claim ha
    rcases hc.mapUser hm va pa w x with ⟨-, hva, hpa, hn, hso⟩ | ⟨⟨e, he⟩, -⟩
    case inr =>
      rw [he] at hr
      cases hr
    case inl =>
      have hnew : pa ∉ s.owned := by
        intro hmem
        have hu := h.fresh.unused pa hmem
        rw [ha] at hu
        exact hu List.mem_cons_self
      refine ⟨hva, ?_, _, h.insert hso ?_ ?_ ?_ hpa ?_ ?_⟩
      · have hs := h.isSome_view (n := pageOf va)
        rw [hn] at hs
        exact Option.not_isSome_iff_eq_none.mp (by simp [← hs])
      · intro f hf
        exact List.mem_append_left _ (List.mem_append_left _ hf)
      · intro f hf hal hne o ho
        apply writeBytes_of_outside
        rw [List.length_replicate]
        exact frames_apart hal hpa hne ho
      · exact List.mem_append_left _ (List.mem_append_right _ List.mem_cons_self)
      · rintro n' leaf' - hv rfl
        exact hnew (h.owned hv)
      · refine .mapped rfl rfl fun o ho => ?_
        have hlt : o < (List.replicate 0x1000 (0 : UInt8)).length := by
          rw [List.length_replicate]
          exact ho
        change writeBytes s.mem pa (List.replicate 0x1000 0) (pa + o) = 0
        rw [writeBytes_of_lt hlt, List.getElem_replicate]

/-- The permissions of a page that was there; its bytes stay. -/
theorem setPermissions_shows (hm : m.Documented Maps) :
    Ensures (Shows Maps image) (setPermissions m va w x) fun _ s =>
      ∃ page, image (pageOf va) = some page ∧
        Shows Maps (update image (pageOf va)
          (some { page with writable := w, executable := x })) s := by
  apply ensures_of_run
  rintro s ⟨view, h⟩ _ s' heq
  by_cases hva : UserPage va
  case neg =>
    -- `map_user` refuses in the end, whatever `unmap` does before
    cases hu : unmap m va s with
    | mk r s₁ =>
      cases r with
      | error e =>
        rw [setPermissions, andThen_of_error hu] at heq
        cases heq
      | ok pa =>
        obtain ⟨e, hr⟩ := mapUser_refused m w x s₁
          fun ha : UserPage va ∧ pa % 0x1000 = 0 => hva ha.1
        rw [setPermissions, andThen_of_ok hu, hr] at heq
        cases heq
  case pos =>
    rcases h.toSound.unmap hm hva.lt_max with ⟨leaf, hok, hl, hs⟩ | ⟨⟨e, he⟩, -⟩
    case inr =>
      have hu : unmap m va s = (.error e, (unmap m va s).2) := Prod.ext he rfl
      rw [setPermissions, andThen_of_error hu] at heq
      cases heq
    case inl =>
      have hu : unmap m va s = (.ok leaf.frame, (unmap m va s).2) := Prod.ext hok rfl
      rw [setPermissions, andThen_of_ok hu] at heq
      have how : ∀ f ∈ s.owned, f ∈ s'.owned := by
        intro f hf
        obtain ⟨-, rfl⟩ := Prod.mk.inj heq
        exact List.mem_append_left _ hf
      have hmem : s'.mem = s.mem := by
        obtain ⟨-, rfl⟩ := Prod.mk.inj heq
        rfl
      rcases hs.mapUser hm va leaf.frame w x with ⟨-, -, -, -, hs⟩ | ⟨⟨e, he⟩, -⟩
      case inr =>
        rw [heq] at he
        cases he
      case inl =>
        rw [heq, update_idem] at hs
        have hp := h.pages (pageOf va)
        rw [hl] at hp
        obtain ⟨page, hi, hb⟩ := hp.exists_page
        have hmi := h.owned hl
        have hal := h.aligned hl
        refine ⟨page, hi, _, h.insert hs how ?_ ?_ ?_ ?_ ?_⟩
        · intro f _ _ _ o _
          rw [hmem]
        · exact how _ hmi
        · exact hal
        · intro n' leaf' hne hv hfr
          exact hne (h.inj hv hl hfr)
        · refine .mapped rfl rfl fun o ho => ?_
          rw [hmem]
          exact hb o ho

theorem Shows.store (h : Shows Maps image s) (hm : m.Documented Maps) {page : Page}
    {data : List UInt8} (hva : va.toNat < VmSpace.userMax) (hp : image (pageOf va) = some page)
    (hlen : va.toNat % 0x1000 + data.length ≤ 0x1000) (hpa : s.translate va = some pa) :
    Shows Maps (update image (pageOf va)
        (some { page with bytes := writeBytes page.bytes (va.toNat % 0x1000) data }))
      { s with mem := writeBytes s.mem pa data } := by
  obtain ⟨view, h⟩ := h
  have hsa := h.pages (pageOf va)
  rw [hp] at hsa
  obtain ⟨leaf, hl, hw, hx, hb⟩ := hsa.exists_leaf
  have hfr : pa = leaf.frame + va.toNat % 0x1000 := by
    rw [h.translate hm hva, hl] at hpa
    exact (Option.some.inj hpa).symm
  subst hfr
  have hse : update view (pageOf va) (some leaf) = view := by rw [← hl, update_eq_self]
  have hs : Sound Maps
      { s with mem := writeBytes s.mem (leaf.frame + va.toNat % 0x1000) data } view :=
    ⟨h.maps, h.root_owned, h.fresh⟩
  rw [← hse] at hs
  refine ⟨_, h.insert hs ?_ ?_ ?_ ?_ ?_ ?_⟩
  · intro f hf
    exact hf
  · intro f _ hal hne o ho
    have ha := frames_apart hal (h.aligned hl) hne ho
    apply writeBytes_of_outside
    omega
  · exact h.owned hl
  · exact h.aligned hl
  · intro n' leaf' hne hv hfr
    exact hne (h.inj hv hl hfr)
  · refine .mapped hw hx fun o ho => ?_
    simp [writeBytes, Nat.add_sub_add_left, hb o ho]

theorem Shows.isMapped (h : Shows Maps image s) (hm : m.Documented Maps)
    (hva : va.toNat < VmSpace.userMax) : s.isMapped va = (image (pageOf va)).isSome := by
  obtain ⟨view, h⟩ := h
  rw [Space.isMapped, h.translate hm hva, Option.isSome_map, h.isSome_view]

/-- What the processor lets a program do at an address, and what it reads there. -/
theorem Shows.access (h : Shows Maps image s) (hm : m.Documented Maps)
    (hva : va.toNat < VmSpace.userMax) :
    (access s.tables s.rootPa va).map (fun a => (a.user, a.writable, a.executable, s.mem a.pa)) =
      (image (pageOf va)).map fun page =>
        (true, page.writable, page.executable, page.bytes (va.toNat % 0x1000)) := by
  obtain ⟨view, h⟩ := h
  obtain ⟨tables, hma, -⟩ := h.maps
  rw [hm.access hma hva]
  have hp := h.pages (pageOf va)
  generalize view (pageOf va) = leaf?, image (pageOf va) = page? at hp ⊢
  cases hp with
  | unmapped => rfl
  | mapped hw hx hb =>
    simp [Leaf.at, hw, hx, hb _ (Nat.mod_lt _ (by decide))]

end Space

end Qunix.Paging
