/-
What the other passes do, and the whole load.

The permission pass gives each page the union of its segments' permissions; the stack is
mapped where nothing was. After both, the pages are laid out as the segments say.
-/

import Qunix.Loader.Mapping

namespace Qunix.Loader

open Function Qunix.Lib Qunix.Lib.Attempt Qunix.Paging Qunix.Elf

/-! ### The permission pass -/

/-- What the segments that touch a page ask for. -/
def permissionsOf (segments : List Segment) (n : Nat) : Bool × Bool :=
  (segments.any fun segment => decide (Touches segment n) && segment.writable,
    segments.any fun segment => decide (Touches segment n) && segment.executable)

namespace Permissions

variable {pages : Permissions} {va k : Nat} {w x : Bool}

/-- Permissions added to an entry that may be there. -/
def added (entry : Option (Bool × Bool)) (wx : Bool × Bool) : Bool × Bool :=
  ((entry.getD (false, false)).1 || wx.1, (entry.getD (false, false)).2 || wx.2)

theorem added_none (wx : Bool × Bool) : added none wx = wx := by simp [added]

theorem added_added (entry : Option (Bool × Bool)) (wx wx' : Bool × Bool) :
    added (some (added entry wx)) wx' = added entry (wx.1 || wx'.1, wx.2 || wx'.2) := by
  simp [added, Bool.or_assoc]

theorem find_add : (pages.add va w x).find k =
    if k = va then some (added (pages.find k) (w, x)) else pages.find k := by
  rw [add, OrderedMap.find_upsert]
  split_ifs with heq
  · rw [heq]
    rfl
  · rfl

theorem find_addAll (vas : List Nat) :
    (vas.foldl (fun pages va => pages.add va w x) pages).find k =
      if k ∈ vas then some (added (pages.find k) (w, x)) else pages.find k := by
  induction vas generalizing pages with
  | nil => rfl
  | cons va vas ih =>
    rw [List.foldl_cons, ih, find_add]
    rcases eq_or_ne k va with rfl | hk
    · simp [added_added]
    · simp [hk]

end Permissions

section Protection

variable {m : Mapper} {Maps : Tables → Nat → List Nat → View → Prop} {segments : List Segment}
  {pages result : Permissions} {n : Nat}

theorem touched_cons {segment : Segment} :
    Touched (segment :: segments) n ↔ Touches segment n ∨ Touched segments n := by
  simp [Touched]

theorem permissionsOf_cons {segment : Segment} : permissionsOf (segment :: segments) n =
    if Touches segment n then
      (segment.writable || (permissionsOf segments n).1,
        segment.executable || (permissionsOf segments n).2)
    else permissionsOf segments n := by
  by_cases h : Touches segment n <;> simp [permissionsOf, h]

theorem permissionsOf_of_not_touched (h : ¬ Touched segments n) :
    permissionsOf segments n = (false, false) := by
  induction segments with
  | nil => rfl
  | cons segment segments ih =>
    rw [touched_cons, not_or] at h
    rw [permissionsOf_cons, if_neg h.1, ih h.2]

theorem segments_of_combine (h : combine segments pages = .ok result) :
    ∀ segment ∈ segments, ∃ range, segmentPages segment = .ok range := by
  induction segments generalizing pages with
  | nil => exact fun _ hmem => nomatch hmem
  | cons segment segments ih =>
    obtain ⟨range, hr, h⟩ := bind_eq_ok h
    intro segment' hmem
    rcases List.mem_cons.mp hmem with rfl | hmem
    · exact ⟨range, hr⟩
    · exact ih h segment' hmem

theorem touched_bounds
    (hall : ∀ segment ∈ segments, ∃ range, segmentPages segment = .ok range)
    (hn : Touched segments n) :
    VmSpace.userMin ≤ n * 0x1000 ∧ (n + 1) * 0x1000 ≤ VmSpace.userMax := by
  obtain ⟨segment, hs, ht⟩ := hn
  obtain ⟨range, hr⟩ := hall segment hs
  exact (segmentPages_ok hr).page_bounds ht

/-- What the union has for a page, and that it has nothing else. -/
theorem find_combine (h : combine segments pages = .ok result) :
    (∀ n, result.find (n * 0x1000) =
      if Touched segments n then
        some (Permissions.added (pages.find (n * 0x1000)) (permissionsOf segments n))
      else pages.find (n * 0x1000)) ∧
    ∀ va, (∀ n, va ≠ n * 0x1000) → result.find va = pages.find va := by
  induction segments generalizing pages with
  | nil =>
    cases h
    refine ⟨fun n => ?_, fun _ _ => rfl⟩
    rw [if_neg]
    rintro ⟨_, hmem, -⟩
    cases hmem
  | cons segment segments ih =>
    obtain ⟨range, hra, h⟩ := bind_eq_ok h
    obtain ⟨hpa, ho⟩ := ih h
    have hp := segmentPages_ok hra
    constructor
    · intro n
      rw [hpa n, Permissions.find_addAll]
      simp only [hp.mem_pages, touched_cons, permissionsOf_cons]
      by_cases ht : Touches segment n
      · by_cases hr : Touched segments n
        · simp [ht, hr, Permissions.added_added]
        · simp [ht, hr, permissionsOf_of_not_touched hr]
      · simp [ht]
    · intro va hva
      rw [ho va hva, Permissions.find_addAll, if_neg]
      intro hmem
      obtain ⟨n, heq, -⟩ := hp.exists_page hmem
      exact hva n heq

theorem combine_spec (h : combine segments .empty = .ok pages) :
    (∀ n, Touched segments n → (n * 0x1000, permissionsOf segments n) ∈ pages.entries) ∧
      ∀ page ∈ pages.entries, ∃ n,
        page = (n * 0x1000, permissionsOf segments n) ∧ Touched segments n := by
  obtain ⟨hp, ho⟩ := find_combine h
  simp only [OrderedMap.find_empty, Permissions.added_none] at hp ho
  constructor
  · intro n hn
    rw [OrderedMap.mem_entries, hp, if_pos hn]
  · rintro ⟨va, wx⟩ hmem
    rw [OrderedMap.mem_entries] at hmem
    by_cases hva : ∃ n, va = n * 0x1000
    · obtain ⟨n, rfl⟩ := hva
      rw [hp] at hmem
      split_ifs at hmem with hn
      cases hmem
      exact ⟨n, rfl, hn⟩
    · rw [ho va fun n heq => hva ⟨n, heq⟩] at hmem
      cases hmem

/-- The pages have what their segments ask for, and none may be both written and executed. -/
def Protected (segments : List Segment) (among : Nat → Prop) (image : UserMemory) : Prop :=
  ∀ n page, among n → image n = some page →
    (page.writable, page.executable) = permissionsOf segments n ∧
      ¬ (page.writable = true ∧ page.executable = true)

theorem protectPage_ensures (hm : m.Documented Maps) {image : UserMemory} {wx : Bool × Bool}
    (hmax : n * 0x1000 < VmSpace.userMax) :
    Ensures (Space.Shows Maps image) (protectPage m (n * 0x1000, wx)) fun _ s =>
      ¬ (wx.1 = true ∧ wx.2 = true) ∧ ∃ page, image n = some page ∧
        Space.Shows Maps
          (update image n (some { page with writable := wx.1, executable := wx.2 })) s := by
  have hp : pageOf (addr (n * 0x1000)) = n := by
    rw [pageOf_addr hmax, Nat.mul_div_cancel _ (by decide)]
  apply Meets.ite
  · exact fun _ => Meets.fail fun _ _ => trivial
  · intro hwx
    rw [Bool.and_eq_true] at hwx
    refine (Space.setPermissions_shows hm).mapErr.weaken (fun _ hs => hs) fun _ s hs => ⟨hwx, ?_⟩
    rwa [hp] at hs

theorem protect_ensures (hm : m.Documented Maps) {content : Nat → UInt8}
    (hpa : combine segments .empty = .ok pages) :
    Ensures (Holds Maps (Touched segments) content) (pages.entries.forM (protectPage m)) fun _ s =>
      ∃ image, Space.Shows Maps image s ∧ Filled (Touched segments) content image ∧
        Protected segments (Touched segments) image := by
  obtain ⟨hke, hv⟩ := combine_spec hpa
  have hall := segments_of_combine hpa
  refine Meets.weaken (Meets.forM (J := fun done s =>
    ∃ image, Space.Shows Maps image s ∧ Filled (Touched segments) content image ∧
      Protected segments (fun n => ∃ wx, (n * 0x1000, wx) ∈ done) image) ?_) ?_ ?_
  · intro done page rest hsp
    obtain ⟨n, rfl, hn⟩ := hv page (by simp [hsp])
    have hmax : n * 0x1000 < VmSpace.userMax := by
      have := (touched_bounds hall hn).2
      omega
    rintro s ⟨image, hs, hf, hp⟩
    refine (protectPage_ensures hm hmax).weaken (fun _ h => h) ?_ s hs
    rintro _ s' ⟨hwx, page, hpage, hs'⟩
    refine ⟨_, hs', hf.setPermissions hpage, fun k page' hk hp' => ?_⟩
    rcases eq_or_ne k n with rfl | hkn
    · rw [update_self] at hp'
      obtain rfl := Option.some.inj hp'
      exact ⟨rfl, hwx⟩
    · rw [update_of_ne hkn] at hp'
      refine hp k page' ?_ hp'
      have hne : k * 0x1000 ≠ n * 0x1000 := by omega
      obtain ⟨wx, hk⟩ := hk
      refine ⟨wx, (List.mem_append.mp hk).resolve_right fun hl => ?_⟩
      exact hne (congrArg Prod.fst (List.mem_singleton.mp hl))
  · rintro s ⟨image, hs, hf⟩
    exact ⟨image, hs, hf, fun n page h => nomatch h.choose_spec⟩
  · rintro _ s ⟨image, hs, hf, hp⟩
    exact ⟨image, hs, hf, fun n page hn => hp n page ⟨_, hke n hn⟩⟩

end Protection

/-! ### The stack -/

/-- The page number of a stack page, from the top. -/
def stackPage (k : Nat) : Nat := userStackTop / 0x1000 - (k + 1)

/-- The pages of the segments, and stack pages where no segment is. -/
structure Laid (segments : List Segment) (stack : Nat → Prop) (image : UserMemory) : Prop where
  filled : Filled (fun n => Touched segments n ∨ stack n) (contentOf segments) image
  guarded : Protected segments (Touched segments) image
  stackPages : ∀ n page, stack n → image n = some page →
    page.writable = true ∧ page.executable = false
  apart : ∀ n, stack n → ¬ Touched segments n

section Stack

variable {m : Mapper} {Maps : Tables → Nat → List Nat → View → Prop} {segments : List Segment}

theorem Laid.insert {stack : Nat → Prop} {image : UserMemory} {n : Nat}
    (h : Laid segments stack image)
    (hs : ∀ segment ∈ segments, segment.data.length ≤ segment.memSize) (hno : image n = none) :
    Laid segments (fun k => stack k ∨ k = n)
      (update image n (some ⟨true, false, fun _ => 0⟩)) := by
  have hnew : ¬ (Touched segments n ∨ stack n) := by
    rw [← h.filled.mapped, hno]
    simp
  constructor
  case filled =>
    refine (h.filled.insert fun o ho => ?_).congr fun k => by rw [or_assoc]
    exact contentOf_untouched hs (fun hn => hnew (.inl hn)) ho
  case guarded =>
    intro k page hk hp
    have hne : k ≠ n := fun heq => hnew (.inl (heq ▸ hk))
    rw [update_of_ne hne] at hp
    exact h.guarded k page hk hp
  case stackPages =>
    intro k page hk hp
    rw [update_apply] at hp
    split_ifs at hp with hkn
    · cases hp
      exact ⟨rfl, rfl⟩
    · exact h.stackPages k page (hk.resolve_right hkn) hp
  case apart =>
    rintro k (hk | rfl) ht
    · exact h.apart k hk ht
    · exact hnew (.inl ht)

theorem stack_ensures (hm : m.Documented Maps)
    (hsi : ∀ segment ∈ segments, segment.data.length ≤ segment.memSize) :
    Ensures (fun s => ∃ image, Space.Shows Maps image s ∧ Laid segments (fun _ => False) image)
      ((List.range userStackPages).forM (mapStackPage m)) fun _ s =>
        ∃ image, Space.Shows Maps image s ∧
          Laid segments (fun n => ∃ k < userStackPages, n = stackPage k) image := by
  refine Meets.weaken (Meets.forM (J := fun done s => ∃ image, Space.Shows Maps image s ∧
    Laid segments (fun n => ∃ k ∈ done, n = stackPage k) image) ?_) ?_ ?_
  · intro done k rest hsp
    have hva : userStackTop - (k + 1) * 0x1000 = stackPage k * 0x1000 := by
      unfold stackPage userStackTop
      omega
    have hmax : stackPage k * 0x1000 < VmSpace.userMax := by
      unfold stackPage userStackTop VmSpace.userMax
      omega
    have hp : pageOf (addr (stackPage k * 0x1000)) = stackPage k := by
      rw [pageOf_addr hmax, Nat.mul_div_cancel _ (by decide)]
    rintro s ⟨image, hs, hl⟩
    refine Meets.bind ((Space.mapNewPage_shows hm).mapErr.of_state hs)
      (fun _ => Meets.pure ?_) s rfl
    rw [hva, hp]
    rintro s' ⟨-, hn, hs'⟩
    refine ⟨_, hs', ?_⟩
    have hl := hl.insert hsi hn
    simpa [exists_or] using hl
  · rintro s ⟨image, hs, hl⟩
    exact ⟨image, hs, by simpa using hl⟩
  · rintro _ s ⟨image, hs, hl⟩
    exact ⟨image, hs, by simpa using hl⟩

/-! ### The whole load -/

theorem validate_ensures (segments : List Segment) {P : Space → Prop} :
    Ensures P (segments.forM fun segment => do
      let _ ← (Attempt.lift (segmentPages segment) :
          Attempt Space LoadError AddrRange)) fun _ => P := by
  apply Meets.forM (J := fun _ => P)
  intro done segment rest _
  exact Meets.bind (Q := fun _ => P) (Meets.lift (fun s hs _ _ => hs) fun _ _ => trivial) fun _ =>
    Meets.pure fun s hs => hs

/-- What a program sees that was loaded into an empty address space. -/
theorem load_ensures (hm : m.Documented Maps) {elf : Elf64} (hse : elf.segments = .ok segments)
    (hsi : ∀ segment ∈ segments, segment.data.length ≤ segment.memSize) :
    Ensures (Space.Shows Maps fun _ => none) (load m elf) fun _ s =>
      (∀ segment ∈ segments, ∃ range, segmentPages segment = .ok range) ∧
        ∃ image, Space.Shows Maps image s ∧
          Laid segments (fun n => ∃ k < userStackPages, n = stackPage k) image := by
  have he : ∀ s, Space.Shows Maps (fun _ => none) s →
      Holds Maps (fun _ => False) (fun _ => 0) s :=
    fun s hs => ⟨_, hs, fun n => by simp, fun h => nomatch h⟩
  rw [load, hse]
  refine Meets.bind (Q := fun segments' s => segments' = segments ∧
    Holds Maps (fun _ => False) (fun _ => 0) s)
    (Meets.lift ?_ fun _ _ => trivial) fun segments' => ?_
  · rintro s hs _ ⟨⟩
    exact ⟨rfl, he s hs⟩
  · apply Meets.assuming
    rintro rfl
    refine Meets.bind (validate_ensures segments') fun _ => ?_
    refine Meets.bind (loadAll_ensures hm hsi) fun _ => ?_
    refine Meets.bind (Q := fun pages s => combine segments' .empty = .ok pages ∧
      Holds Maps (Touched segments') (contentOf segments') s)
      (Meets.lift ?_ fun _ _ => trivial) fun pages => ?_
    · intro s hs pages hp
      exact ⟨hp, hs⟩
    · apply Meets.assuming
      intro hp
      have hpl := segments_of_combine hp
      refine Meets.bind (protect_ensures hm hp) fun _ => ?_
      refine (stack_ensures hm hsi).weaken ?_ fun _ s hs => ⟨hpl, hs⟩
      rintro s ⟨image, hsh, hf, hpr⟩
      refine ⟨image, hsh, ?_⟩
      constructor
      case filled => exact hf.congr fun n => by simp
      case guarded => exact hpr
      case stackPages => exact fun n page h => h.elim
      case apart => exact fun n h => h.elim

end Stack

end Qunix.Loader
