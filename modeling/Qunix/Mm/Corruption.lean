/-
The frame allocator over memory somebody else can write.

Free blocks keep their links and tags in the frames themselves. Here an adversary
may store any word into any recorded region between two calls, and may free
whatever it likes. `pop` and `unlink` check a link before they follow it, but
`plausible_link` asks only for alignment and for the start to be recorded: a link
to an aligned page whose block runs past the end of its region is accepted and
becomes a list head. While no link that is followed does that, every store of the
allocator and every block it hands out stays inside the recorded regions. Such a link does
its damage only once the block it names is popped, but a condition at that moment would say
of the head what is to be shown of the block handed out.
-/

import Qunix.Mm.Runs

namespace Qunix.Mm

open Qunix.Lib Function

/-- A `write_link`: the word it stores, and the regions recorded at that moment. -/
structure Store where
  regions : List (Nat × Nat)
  addr : Nat
deriving DecidableEq, Repr

/-- The word lies inside a recorded region. -/
def Store.Inside (w : Store) : Prop := ∃ r ∈ w.regions, r.1 ≤ w.addr ∧ w.addr + 8 ≤ r.2

instance (w : Store) : Decidable w.Inside :=
  inferInstanceAs (Decidable (∃ r ∈ w.regions, _ ∧ _))

namespace Buddy

/-! ### The stores of each operation

Each function lists the `set_word` calls of the operation it is named after, in the
order the source makes them; an operation that panics has made those before. -/

def store (b : Buddy) (pa offset : Nat) : Store := ⟨b.regions, pa + offset⟩

def pushStores (b : Buddy) (pa order : Nat) : List Store :=
  let head := b.freeLists order
  [b.store pa offNext, b.store pa offPrev, b.store pa offTag] ++
    if head ≠ NIL then [b.store head offPrev] else []

def popStores (b : Buddy) (order : Nat) : List Store :=
  match b.pop order with
  | .ok (some head, _) =>
    let link := b.word head offNext
    let next := if b.plausibleLink link order then link else NIL
    (if next ≠ NIL then [b.store next offPrev] else []) ++ [b.store head offTag]
  | _ => []

def unlinkStores (b : Buddy) (pa order : Nat) : List Store :=
  match b.unlink pa order with
  | .ok (true, _) =>
    let prev := b.word pa offPrev
    let next := b.word pa offNext
    (if prev ≠ NIL then [b.store prev offNext] else []) ++
      (if next ≠ NIL then [b.store next offPrev] else []) ++ [b.store pa offTag]
  | _ => []

/-- The stores after a step that may panic. -/
def andThen {α : Type} (step : Except Panic α) (rest : α → List Store) : List Store :=
  match step with
  | .error _ => []
  | .ok x => rest x

@[simp] theorem andThen_error {α : Type} (e : Panic) (rest : α → List Store) :
    andThen (.error e) rest = [] := rfl

@[simp] theorem andThen_ok {α : Type} (x : α) (rest : α → List Store) :
    andThen (.ok x) rest = rest x := rfl

def carveStores (b : Buddy) (addr limit : Nat) : Nat → List Store
  | 0 => []
  | pages + 1 =>
    if addr < limit then
      let order := carveOrder addr limit
      b.pushStores addr order ++
        andThen (addU64 (b.push addr order).freeBytes (blockSize order)) fun freeBytes =>
          carveStores { b.push addr order with freeBytes := freeBytes }
            (addr + blockSize order) limit pages
    else []

def addRegionStores (b : Buddy) (start len : Nat) : List Store :=
  match checkedNextMultipleOf start pageSize, checkedAdd start len with
  | some addr, some limit =>
    let last := limit &&& notU 64 (pageSize - 1)
    if last ≤ addr then []
    else
      andThen (addU64 (addr - start) (limit - last) >>= addU64 b.edgeDroppedBytes) fun edge =>
        if b.regions.length = maxRegions then []
        else
          carveStores
            { b with edgeDroppedBytes := edge, regions := b.regions ++ [(addr, last)] }
            addr last ((last - addr) / pageSize)
  | _, _ => []

def splitDownStores (b : Buddy) (pa order : Nat) : Nat → List Store
  | 0 => []
  | source + 1 =>
    if order < source + 1 then
      b.pushStores (pa + blockSize source) source ++
        (b.push (pa + blockSize source) source).splitDownStores pa order source
    else []

def allocStores (b : Buddy) (order : Nat) : List Store :=
  let usable := b.nonempty &&& notU 32 (1 <<< order - 1)
  let source := trailingZeros 32 usable
  if maxOrder < order ∨ usable = 0 then []
  else
    b.popStores source ++
      match b.pop source with
      | .ok (some pa, b) => b.splitDownStores pa order source
      | _ => []

def coalesceStores (b : Buddy) (regionStart regionEnd pa order : Nat) : Nat → List Store
  | 0 => []
  | levels + 1 =>
    let size := blockSize order
    let buddy := pa ^^^ size
    if buddy < regionStart ∨ regionEnd ≤ buddy ∨ regionEnd - buddy < size then []
    else
      b.unlinkStores buddy order ++
        match b.unlink buddy order with
        | .ok (true, b) =>
          b.coalesceStores regionStart regionEnd (min pa buddy) (order + 1) levels
        | _ => []

/-- The stores of the merge loop and of the push after it. -/
def coalescePushStores (b : Buddy) (regionStart regionEnd pa order levels : Nat) : List Store :=
  b.coalesceStores regionStart regionEnd pa order levels ++
    andThen (b.coalesce regionStart regionEnd pa order levels) fun (pa, order, b) =>
      b.pushStores pa order

def freeStores (b : Buddy) (pa order : Nat) : List Store :=
  if maxOrder < order ∨ b.regions = [] then []
  else
    match addU64 b.freeBytes (blockSize order), b.regionOf pa with
    | .ok freeBytes, some (regionStart, regionEnd) =>
      let b := { b with freeBytes := freeBytes }
      if regionEnd - pa < blockSize order ∨ pa % blockSize order ≠ 0 then []
      else
        andThen (b.scanContaining pa order regionStart 32 b.nonempty) fun _ =>
          b.coalescePushStores regionStart regionEnd pa order (maxOrder - order)
    | _, _ => []

/-! ### Blocks inside the regions -/

variable {b b' b'' : Buddy} {pa o j link : Nat}

/-- A block of order `o` at `pa` is aligned and wholly inside one region. -/
def Fits (b : Buddy) (pa o : Nat) : Prop :=
  blockSize o ∣ pa ∧ ∃ r ∈ b.regions, r.1 ≤ pa ∧ pa + blockSize o ≤ r.2

instance (b : Buddy) (pa o : Nat) : Decidable (b.Fits pa o) :=
  inferInstanceAs (Decidable (_ ∧ ∃ r ∈ b.regions, _ ∧ _))

/-- The next link of `pa`, if it passes for a link of order `o`, ends the list or
names a block that fits. -/
def NextFits (b : Buddy) (pa o : Nat) : Prop :=
  b.plausibleLink (b.next pa) o = true → b.next pa = NIL ∨ b.Fits (b.next pa) o

instance (b : Buddy) (pa o : Nat) : Decidable (b.NextFits pa o) :=
  inferInstanceAs (Decidable (_ → _ ∨ _))

/-- The next link of the head of the list `alloc` takes from fits. -/
def HeadLinkFits (b : Buddy) (order : Nat) : Prop :=
  let usable := b.nonempty &&& notU 32 (1 <<< order - 1)
  let source := trailingZeros 32 usable
  usable ≠ 0 → b.freeLists source ≠ NIL → b.NextFits (b.freeLists source) source

instance (b : Buddy) (order : Nat) : Decidable (b.HeadLinkFits order) :=
  inferInstanceAs (Decidable (_ → _ → _))

/-- The next link of `pa` fits, if `pa` carries the tag of order `o`. -/
def TaggedLinkFits (b : Buddy) (pa o : Nat) : Prop :=
  b.Fits pa o → b.word pa offTag = freeTag pa o → b.NextFits pa o

instance (b : Buddy) (pa o : Nat) : Decidable (b.TaggedLinkFits pa o) :=
  inferInstanceAs (Decidable (_ → _ → _))

/-- The buddies the merge loop of `free` may unlink, with their orders. -/
def mergePath (pa o : Nat) : Nat → List (Nat × Nat)
  | 0 => []
  | levels + 1 =>
    (pa ^^^ blockSize o, o) :: mergePath (min pa (pa ^^^ blockSize o)) (o + 1) levels

theorem lt_of_mem_mergePath {levels : Nat} {x : Nat × Nat} (hx : x ∈ mergePath pa o levels) :
    x.2 < o + levels := by
  induction levels generalizing pa o with
  | zero => cases hx
  | succ levels ih =>
    rcases List.mem_cons.mp hx with rfl | hx
    · exact Nat.lt_add_of_pos_right levels.succ_pos
    · have := ih hx
      omega

theorem Fits.congr (h : b.Fits pa o) (hr : b'.regions = b.regions) : b'.Fits pa o := by
  unfold Fits
  rw [hr]
  exact h

theorem Fits.page_dvd (h : b.Fits pa o) : pageSize ∣ pa := (pageSize_dvd_blockSize o).trans h.1

theorem blockSize_dvd_succ (o : Nat) : blockSize o ∣ blockSize (o + 1) :=
  ⟨2, by rw [blockSize_succ]; omega⟩

theorem Fits.lower (h : b.Fits pa (o + 1)) : b.Fits pa o := by
  obtain ⟨hdvd, r, hr, hlo, hhi⟩ := h
  rw [blockSize_succ] at hhi
  exact ⟨(blockSize_dvd_succ o).trans hdvd, r, hr, hlo, by omega⟩

theorem Fits.upper (h : b.Fits pa (o + 1)) : b.Fits (pa + blockSize o) o := by
  have hdvd := h.lower.1
  obtain ⟨-, r, hr, hlo, hhi⟩ := h
  rw [blockSize_succ] at hhi
  exact ⟨Nat.dvd_add hdvd (Nat.dvd_refl _), r, hr, by omega, by omega⟩

theorem Fits.of_le {n : Nat} (h : b.Fits pa n) (hle : o ≤ n) : b.Fits pa o := by
  induction hle with
  | refl => exact h
  | step _ ih => exact ih h.lower

/-- A store of the allocator whose regions are those of `b`, inside one of them. -/
def Within (b : Buddy) (w : Store) : Prop := w.regions = b.regions ∧ w.Inside

theorem Within.congr {w : Store} (h : b'.Within w) (hr : b'.regions = b.regions) : b.Within w :=
  ⟨h.1.trans hr, h.2⟩

theorem Fits.within (h : b.Fits pa o) (hj : j + 8 ≤ pageSize) : b.Within (b.store pa j) := by
  obtain ⟨-, r, hr, hlo, hhi⟩ := h
  have := pageSize_le_blockSize o
  refine ⟨rfl, r, hr, ?_, ?_⟩ <;> simp only [store] <;> omega

/-! ### What one operation keeps -/

/-- Every list is empty or starts with a block that fits. The words of the blocks
themselves are not constrained at all. -/
structure Anchored (b : Buddy) : Prop where
  heads : ∀ o ≤ maxOrder, b.freeLists o = NIL ∨ b.Fits (b.freeLists o) o
  pages : ∀ r ∈ b.regions, pageSize ∣ r.2
  nonempty : b.nonempty < 2 ^ (maxOrder + 1)

/-- `b'` is reached from `b` by `stores`: it is anchored and differs from `b` in no
other word. -/
structure Moved (b b' : Buddy) (stores : List Store) : Prop where
  anchored : b'.Anchored
  regions : b'.regions = b.regions
  mem : ∀ a, (∀ w ∈ stores, w.addr ≠ a) → b'.mem a = b.mem a

theorem Moved.trans {ws ws' : List Store} (h : Moved b b' ws) (h' : Moved b' b'' ws') :
    Moved b b'' (ws ++ ws') where
  anchored := h'.anchored
  regions := h'.regions.trans h.regions
  mem a ha := (h'.mem a fun w hw => ha w (List.mem_append_right _ hw)).trans
    (h.mem a fun w hw => ha w (List.mem_append_left _ hw))

theorem Moved.congr {ws : List Store} {c c' : Buddy} (h : Moved c b' ws)
    (hmem : c.mem = b.mem) (hr : c.regions = b.regions) (hmem' : c'.mem = b'.mem)
    (hr' : c'.regions = b'.regions) (hl : c'.freeLists = b'.freeLists)
    (hb : c'.nonempty = b'.nonempty) : Moved b c' ws where
  anchored := ⟨fun o ho => by
      rw [hl]
      exact (h.anchored.heads o ho).imp_right fun hf => hf.congr hr',
    hr' ▸ h.anchored.pages, hb ▸ h.anchored.nonempty⟩
  regions := hr'.trans (h.regions.trans hr)
  mem a ha := by rw [hmem', h.mem a ha, hmem]

/-- All words of memory are words at an offset into a page. -/
theorem mem_eq_of_word {a : Nat}
    (h : ∀ x i, pageSize ∣ x → i < pageSize → x + i = a → b'.word x i = b.word x i) :
    b'.mem a = b.mem a := by
  have hs : pageSize * (a / pageSize) + a % pageSize = a := Nat.div_add_mod a pageSize
  have := h _ _ (Nat.dvd_mul_right _ _) (Nat.mod_lt a pageSize_pos) hs
  simpa [word, hs] using this

/-- The state `pop` leaves when it makes `link` the head of the list. -/
def popTo (b : Buddy) (o link truncated : Nat) : Buddy :=
  let b₁ := { b with truncatedLists := truncated, freeLists := update b.freeLists o link }
  let b₂ :=
    if link = NIL then { b₁ with nonempty := b₁.nonempty &&& notU 32 (1 <<< o) }
    else b₁.setWord link offPrev NIL
  b₂.setWord (b.freeLists o) offTag 0

def popToStores (b : Buddy) (o link : Nat) : List Store :=
  (if link ≠ NIL then [b.store link offPrev] else []) ++ [b.store (b.freeLists o) offTag]

/-- `pop` finds the list empty, counts past its width, or makes the next link the
head, cutting the list short if that link is implausible. -/
theorem pop_cases (b : Buddy) (o : Nat) :
    (b.pop o = .ok (none, b) ∧ b.popStores o = []) ∨
    (∃ e, b.pop o = .error e ∧ b.popStores o = []) ∨
    ∃ link truncated, b.freeLists o ≠ NIL ∧ b.plausibleLink link o = true ∧
      (link = NIL ∨ link = b.next (b.freeLists o)) ∧
      b.pop o = .ok (some (b.freeLists o), b.popTo o link truncated) ∧
      b.popStores o = b.popToStores o link := by
  by_cases hnil : b.freeLists o = NIL
  · have hpop : b.pop o = .ok (none, b) := by simp [Buddy.pop, hnil]
    exact .inl ⟨hpop, by rw [popStores, hpop]⟩
  · right
    by_cases hl : b.plausibleLink (b.word (b.freeLists o) offNext) o = true
    · have hpop : b.pop o = .ok (some (b.freeLists o),
          b.popTo o (b.word (b.freeLists o) offNext) b.truncatedLists) := by
        simp only [Buddy.pop, hnil, hl]
        rfl
      refine .inr ⟨_, _, hnil, hl, .inr rfl, hpop, ?_⟩
      simp only [popStores, hpop, hl]
      rfl
    · cases hadd : addU64 b.truncatedLists 1 with
      | error e =>
        have hpop : b.pop o = .error e := by
          simp [Buddy.pop, hnil, hl, hadd, bind, Except.bind]
        exact .inl ⟨e, hpop, by rw [popStores, hpop]⟩
      | ok truncated =>
        have hpop : b.pop o = .ok (some (b.freeLists o), b.popTo o NIL truncated) := by
          simp only [Buddy.pop, hnil, hl, hadd]
          rfl
        refine .inr ⟨NIL, truncated, hnil, by simp [plausibleLink], .inl rfl, hpop, ?_⟩
        simp only [popStores, hpop, hl]
        rfl

/-- `unlink` finds no tag, rejects a neighbour, or splices. -/
theorem unlink_cases (b : Buddy) (pa o : Nat) :
    (b.unlink pa o = .ok (false, b) ∧ b.unlinkStores pa o = []) ∨
    (∃ rejected, b.unlink pa o = .ok (false, { b with rejectedUnlinks := rejected }) ∧
      b.unlinkStores pa o = []) ∨
    (∃ e, b.unlink pa o = .error e ∧ b.unlinkStores pa o = []) ∨
    (b.word pa offTag = freeTag pa o ∧ b.freeNeighbour (b.prev pa) o = true ∧
      b.freeNeighbour (b.next pa) o = true ∧ b.unlinkStores pa o =
        (if b.prev pa ≠ NIL then [b.store (b.prev pa) offNext] else []) ++
          (if b.next pa ≠ NIL then [b.store (b.next pa) offPrev] else []) ++
          [b.store pa offTag]) := by
  by_cases htag : b.word pa offTag = freeTag pa o
  · by_cases hok : b.freeNeighbour (b.prev pa) o = true ∧ b.freeNeighbour (b.next pa) o = true
    · obtain ⟨hp, hn⟩ := hok
      refine .inr (.inr (.inr ⟨htag, hp, hn, ?_⟩))
      have hp' : b.freeNeighbour (b.word pa offPrev) o = true := hp
      have hn' : b.freeNeighbour (b.word pa offNext) o = true := hn
      simp only [unlinkStores, Buddy.unlink, htag, hp', hn', ne_eq]
      rfl
    · have hbad : (!b.freeNeighbour (b.word pa offPrev) o ||
          !b.freeNeighbour (b.word pa offNext) o) = true := by
        simp only [Bool.or_eq_true, Bool.not_eq_true', ← Bool.not_eq_true]
        exact not_and_or.mp hok
      cases hadd : addU64 b.rejectedUnlinks 1 with
      | error e =>
        have hu : b.unlink pa o = .error e := by
          simp [Buddy.unlink, htag, hbad, hadd, bind, Except.bind]
        exact .inr (.inr (.inl ⟨e, hu, by rw [unlinkStores, hu]⟩))
      | ok rejected =>
        have hu : b.unlink pa o = .ok (false, { b with rejectedUnlinks := rejected }) := by
          simp [Buddy.unlink, htag, hbad, hadd, bind, Except.bind, pure, Except.pure]
        exact .inr (.inl ⟨rejected, hu, by rw [unlinkStores, hu]⟩)
  · have hu : b.unlink pa o = .ok (false, b) := by simp [Buddy.unlink, htag]
    exact .inl ⟨hu, by rw [unlinkStores, hu]⟩

theorem Moved.refl (h : b.Anchored) : Moved b b [] := ⟨h, rfl, fun _ _ => rfl⟩

/-- A step from `b` that issues the stores `ws`: they are inside the regions, also if
it panics, and if it returns `x` it leaves `after x` and `post x` holds. -/
structure Confined {α : Type} (b : Buddy) (step : Except Panic α) (after : α → Buddy)
    (ws : List Store) (post : α → Prop) : Prop where
  within : ∀ w ∈ ws, b.Within w
  returns : ∀ x, step = .ok x → Moved b (after x) ws ∧ post x

namespace Confined

variable {α β : Type} {f : Except Panic α} {g : Except Panic β} {after : α → Buddy}
  {after' : β → Buddy} {post : α → Prop} {post' : β → Prop} {l l' : List Store} {x : α}

theorem error {e : Panic} : Confined b (.error e) after [] post := ⟨nofun, nofun⟩

theorem done (h : Moved b (after x) []) (hx : post x) : Confined b (.ok x) after [] post := by
  refine ⟨nofun, fun y hy => ?_⟩
  cases hy
  exact ⟨h, hx⟩

theorem panic {e : Panic} (h : ∀ w ∈ l, b.Within w) : Confined b (.error e) after l post :=
  ⟨h, nofun⟩

theorem trans (h : ∀ w ∈ l, b.Within w) (hm : Moved b b' l)
    (h' : Confined b' g after' l' post') : Confined b g after' (l ++ l') post' := by
  refine ⟨fun w hw => ?_, fun y hy => ?_⟩
  · rcases List.mem_append.mp hw with hw | hw
    · exact h w hw
    · exact (h'.within w hw).congr hm.regions
  · obtain ⟨hm', hp⟩ := h'.returns y hy
    exact ⟨hm.trans hm', hp⟩

end Confined

namespace Anchored

variable (h : b.Anchored)

include h

theorem head_dvd (ho : o ≤ maxOrder) :
    b.freeLists o = NIL ∨ pageSize ∣ b.freeLists o :=
  (h.heads o ho).imp_right Fits.page_dvd

/-- A plausible link may be stored through, whatever it names. -/
theorem within_of_plausible (hl : b.plausibleLink link o = true) (hne : link ≠ NIL)
    (hj : j + 8 ≤ pageSize) : b.Within (b.store link j) := by
  obtain ⟨hdvd, r, hr, hlo, hhi⟩ := (plausibleLink_cases hl).resolve_left hne
  have hp := (pageSize_dvd_blockSize o).trans hdvd
  have hend := h.pages r hr
  refine ⟨rfl, r, hr, ?_, ?_⟩ <;> simp only [store] <;> unfold pageSize at * <;> omega

theorem pushStores_within (ho : o ≤ maxOrder) (hf : b.Fits pa o) :
    ∀ w ∈ b.pushStores pa o, b.Within w := by
  intro w hw
  simp only [pushStores, List.mem_append, List.mem_cons, List.not_mem_nil, or_false,
    List.mem_ite_nil_right] at hw
  rcases hw with (rfl | rfl | rfl) | ⟨hne, rfl⟩
  · exact hf.within (by decide)
  · exact hf.within (by decide)
  · exact hf.within (by decide)
  · exact ((h.heads o ho).resolve_left hne).within (by decide)

/-- The list of one order gets a new head. -/
theorem setHead (hr : b'.regions = b.regions) (hl : b'.freeLists = update b.freeLists o link)
    (hf : link = NIL ∨ b.Fits link o) (hn : b'.nonempty < 2 ^ (maxOrder + 1)) : b'.Anchored := by
  refine ⟨fun k hk => ?_, hr ▸ h.pages, hn⟩
  rw [hl, update_apply]
  split_ifs with hko
  · subst hko
    exact hf.imp_right fun hf => hf.congr hr
  · exact (h.heads k hk).imp_right fun hf => hf.congr hr

theorem push (ho : o ≤ maxOrder) (hfi : b.Fits pa o) :
    Moved b (b.push pa o) (b.pushStores pa o) := by
  refine ⟨h.setHead push_regions push_freeLists (.inr hfi) ?_, push_regions,
    fun a ha => mem_eq_of_word ?_⟩
  · rw [push_nonempty, Nat.one_shiftLeft]
    exact Nat.or_lt_two_pow h.nonempty (Nat.pow_lt_pow_right (by decide) (by omega))
  · intro x i hx hi hxi
    have hout : ∀ y k, b.store y k ∈ b.pushStores pa o → ¬ (x = y ∧ i = k) := by
      rintro y k hmem ⟨rfl, rfl⟩
      exact ha _ hmem hxi
    rw [word_push hfi.page_dvd (h.head_dvd ho) hx hi, if_neg, if_neg, if_neg, if_neg]
    · exact hout _ _ (by simp [pushStores])
    · exact hout _ _ (by simp [pushStores])
    · exact hout _ _ (by simp [pushStores])
    · rintro ⟨hne, heq⟩
      exact hout _ _ (by simp [pushStores, hne]) heq

/-! ### Allocation -/

theorem splitDown {source : Nat} (order : Nat) (ho : source ≤ maxOrder) (hf : b.Fits pa source) :
    Confined b (.ok (b.splitDown pa order source)) id (b.splitDownStores pa order source)
      fun _ => True := by
  induction source generalizing b with
  | zero => exact .done (.refl h) trivial
  | succ source ih =>
    rw [splitDownStores, Buddy.splitDown]
    split
    · have hm := h.push (by omega) hf.upper
      refine .trans (h.pushStores_within (by omega) hf.upper) hm ?_
      exact ih hm.anchored (by omega) (hf.lower.congr hm.regions)
    · exact .done (.refl h) trivial

/-- Making `link` the head, as `pop` does with the link it accepts. -/
theorem popTo (truncated : Nat) (hli : link = NIL ∨ b.Fits link o) :
    Moved b (b.popTo o link truncated) (b.popToStores o link) := by
  have hl : (b.popTo o link truncated).freeLists = update b.freeLists o link := by
    unfold Buddy.popTo
    split <;> rfl
  have hr : (b.popTo o link truncated).regions = b.regions := by
    unfold Buddy.popTo
    split <;> rfl
  have hb : (b.popTo o link truncated).nonempty ≤ b.nonempty := by
    unfold Buddy.popTo
    split
    · exact Nat.and_le_left
    · exact le_rfl
  refine ⟨h.setHead hr hl hli (hb.trans_lt h.nonempty), hr, fun a ha => ?_⟩
  have htag : b.freeLists o + offTag ≠ a := ha (b.store _ offTag) (by simp [popToStores])
  by_cases hnil : link = NIL
  · simp [Buddy.popTo, if_pos hnil, setWord, update_of_ne htag.symm]
  · have hp : link + offPrev ≠ a := ha (b.store link offPrev) (by simp [popToStores, hnil])
    simp [Buddy.popTo, if_neg hnil, setWord, update_of_ne htag.symm, update_of_ne hp.symm]

/-- `pop` hands out the head. The link it follows becomes the head, so it must fit. -/
theorem pop (ho : o ≤ maxOrder) (hn : b.freeLists o ≠ NIL → b.NextFits (b.freeLists o) o) :
    Confined b (b.pop o) Prod.snd (b.popStores o) fun r => ∀ pa ∈ r.1, b.Fits pa o := by
  rcases pop_cases b o with ⟨hpop, hs⟩ | ⟨e, hpop, hs⟩ |
    ⟨link, truncated, hnil, hl, hc, hpop, hs⟩
  · rw [hs, hpop]
    exact .done (.refl h) nofun
  · rw [hs, hpop]
    exact .error
  · have hf := (h.heads o ho).resolve_left hnil
    rw [hs, hpop]
    refine ⟨fun w hw => ?_, fun r heq => ?_⟩
    · simp only [popToStores, List.mem_append, List.mem_ite_nil_right, List.mem_singleton] at hw
      rcases hw with ⟨hne, rfl⟩ | rfl
      · exact h.within_of_plausible hl hne (by decide)
      · exact hf.within (by decide)
    · cases heq
      refine ⟨h.popTo truncated ?_, fun pa hpa => Option.some.inj hpa ▸ hf⟩
      rcases hc with hend | rfl
      · exact .inl hend
      · exact hn hnil hl

theorem source_le {order : Nat} (hu : b.nonempty &&& notU 32 (1 <<< order - 1) ≠ 0) :
    trailingZeros 32 (b.nonempty &&& notU 32 (1 <<< order - 1)) ≤ maxOrder ∧
      order ≤ trailingZeros 32 (b.nonempty &&& notU 32 (1 <<< order - 1)) := by
  have hsm : ∀ n, b.nonempty.testBit n = true → n ≤ maxOrder := by
    intro n hn
    by_contra hlt
    have hpow : 2 ^ (maxOrder + 1) ≤ 2 ^ n := Nat.pow_le_pow_right (by decide) (by omega)
    rw [Nat.testBit_lt_two_pow (h.nonempty.trans_le hpow)] at hn
    cases hn
  obtain ⟨n, hn⟩ := Nat.exists_testBit_of_ne_zero hu
  have hbit := hn
  rw [Nat.testBit_and, Bool.and_eq_true] at hbit
  have hn32 : n < 32 := (hsm n hbit.1).trans_lt (by decide)
  obtain ⟨hs32, hs, -⟩ := trailingZeros_spec hn32 hn
  rw [testBit_usable hs32, Bool.and_eq_true, decide_eq_true_eq] at hs
  exact ⟨hsm _ hs.1, hs.2⟩

theorem alloc {order : Nat} (hl : b.HeadLinkFits order) :
    Confined b (b.alloc order) Prod.snd (b.allocStores order)
      fun r => ∀ pa ∈ r.1, b.Fits pa order := by
  by_cases hn : maxOrder < order ∨ b.nonempty &&& notU 32 (1 <<< order - 1) = 0
  · have hr : b.alloc order = .ok (none, b) := by
      rcases hn with hmax | hu
      · simp [Buddy.alloc, hmax]
      · simp [Buddy.alloc, hu]
    rw [allocStores, if_pos hn, hr]
    exact .done (.refl h) (by simp)
  · rw [allocStores, if_neg hn]
    push Not at hn
    obtain ⟨hmax, hu⟩ := hn
    obtain ⟨hs, hle⟩ := h.source_le hu
    have hpop := h.pop hs (hl hu)
    rw [Buddy.alloc, if_neg (by omega), if_neg hu]
    simp only
    generalize trailingZeros 32 (b.nonempty &&& notU 32 (1 <<< order - 1)) = source at *
    cases hre : b.pop source with
    | error e => exact .panic fun w hw => hpop.within w (by simpa using hw)
    | ok result =>
      obtain ⟨popped, b₁⟩ := result
      obtain ⟨hm, hf⟩ := hpop.returns _ hre
      refine .trans hpop.within hm ?_
      cases popped with
      | none => exact .done (.refl hm.anchored) (by simp)
      | some pa =>
        have hf := hf pa rfl
        have hsp := hm.anchored.splitDown order hs (hf.congr hm.regions)
        refine ⟨hsp.within, fun r heq => ?_⟩
        obtain ⟨_, hso, heq⟩ := bind_eq_ok heq
        cases hso
        obtain ⟨freeBytes, -, heq⟩ := bind_eq_ok heq
        cases heq
        refine ⟨(hsp.returns _ rfl).1.congr rfl rfl rfl rfl rfl rfl, fun pa' hpa => ?_⟩
        cases hpa
        exact hf.of_le hle

/-! ### Freeing -/

/-- Splicing out a block whose next link fits: a neighbour that takes the link over
had the tag of the same order. -/
theorem detached (ht : b.TaggedLinkFits pa o) (ho : o ≤ maxOrder) (hfi : b.Fits pa o)
    (htag : b.word pa offTag = freeTag pa o)
    (hp : b.freeNeighbour (b.prev pa) o = true) (hn : b.freeNeighbour (b.next pa) o = true)
    (hd : Detached b b' pa o) :
    b'.Anchored ∧ ∀ x, ∀ k ≤ maxOrder, b.TaggedLinkFits x k → b'.TaggedLinkFits x k := by
  have hnext := ht hfi htag (freeNeighbour_links hn)
  have hnon : b'.nonempty < 2 ^ (maxOrder + 1) := by
    rw [hd.nonempty]
    split
    · exact Nat.and_le_left.trans_lt h.nonempty
    · exact h.nonempty
  refine ⟨?_, fun x k hk htx hx hxt hl => ?_⟩
  · have hl := hd.freeLists
    split_ifs at hl
    · exact h.setHead hd.regions hl hnext hnon
    · exact h.setHead hd.regions (hl.trans (update_eq_self o _).symm) (h.heads o ho) hnon
  · have hx' : b.Fits x k := hx.congr hd.regions.symm
    -- The tag of `x` was there before: `pa`'s own is cleared.
    have hold : b.word x offTag = freeTag x k := by
      rw [hd.word x offTag hx.page_dvd (by decide)] at hxt
      split at hxt
      · exact absurd hxt.symm (freeTag_ne_zero _ _)
      · simpa [offTag, offPrev, offNext] using hxt
    have hw : b'.next x = if x = b.prev pa then b.next pa else b.next x := by
      rw [Buddy.next, hd.word x offNext hx.page_dvd (by decide)]
      simp [offTag, offPrev, offNext, Buddy.next]
    rw [hw] at hl ⊢
    have hr : ∀ y, b'.plausibleLink y k = b.plausibleLink y k := fun y => by
      simp [plausibleLink, regionOf, hd.regions]
    rw [hr] at hl
    split_ifs with heq
    · have hpr : b.word x offTag = freeTag x o :=
        (freeNeighbour_tag (heq ▸ hp)).resolve_left fun hnil =>
          pageSize_not_dvd_NIL (hnil ▸ hx.page_dvd)
      obtain rfl := freeTag_inj hk ho (hold.symm.trans hpr)
      exact hnext.imp_right fun hf => hf.congr hd.regions
    · rw [if_neg heq] at hl
      exact (htx hx' hold hl).imp_right fun hf => hf.congr hd.regions

theorem unlink (ht : b.TaggedLinkFits pa o) (ho : o ≤ maxOrder) (hf : b.Fits pa o) :
    Confined b (b.unlink pa o) Prod.snd (b.unlinkStores pa o) fun r =>
      ∀ x, ∀ k ≤ maxOrder, b.TaggedLinkFits x k → r.2.TaggedLinkFits x k := by
  rcases unlink_cases b pa o with ⟨hu, hs⟩ | ⟨rejected, hu, hs⟩ |
    ⟨e, hu, hs⟩ | ⟨htag, hp, hn, hs⟩
  · rw [hs, hu]
    exact .done (.refl h) fun _ _ _ htx => htx
  · rw [hs, hu]
    exact .done ((Moved.refl h).congr rfl rfl rfl rfl rfl rfl) fun _ _ _ htx => htx
  · rw [hs, hu]
    exact .error
  · obtain ⟨c, hu, hd⟩ := unlink_detached hf.page_dvd htag hp hn
    rw [hs]
    refine ⟨fun w hw => ?_, fun r heq => ?_⟩
    · simp only [List.mem_append, List.mem_ite_nil_right, List.mem_singleton] at hw
      rcases hw with (⟨hne, rfl⟩ | ⟨hne, rfl⟩) | rfl
      · exact h.within_of_plausible (freeNeighbour_links hp) hne (by decide)
      · exact h.within_of_plausible (freeNeighbour_links hn) hne (by decide)
      · exact hf.within (by decide)
    · rw [hu] at heq
      cases heq
      obtain ⟨han, ht'⟩ := h.detached ht ho hf htag hp hn hd
      refine ⟨⟨han, hd.regions, fun a ha => mem_eq_of_word fun x i hx hi hxi => ?_⟩, ht'⟩
      have hxN : x ≠ NIL := fun heq => pageSize_not_dvd_NIL (heq ▸ hx)
      have hout : ∀ y k, (y ≠ NIL → b.store y k ∈ b.unlinkStores pa o) → ¬ (x = y ∧ i = k) := by
        rintro y k hmem ⟨rfl, rfl⟩
        exact ha _ (hs ▸ hmem hxN) hxi
      rw [hd.word x i hx hi, if_neg, if_neg, if_neg]
      · exact hout _ _ fun hne => by simp [hs, hne]
      · exact hout _ _ fun hne => by simp [hs, hne]
      · exact hout _ _ fun _ => by simp [hs]

section Coalesce

variable {r : Nat × Nat} (levels : Nat)
  (ht : ∀ x ∈ mergePath pa o levels, b.TaggedLinkFits x.1 x.2) (hl : o + levels = maxOrder)
  (hr : r ∈ b.regions) (hdvd : blockSize o ∣ pa) (hlo : r.1 ≤ pa) (hhi : pa + blockSize o ≤ r.2)

include ht hl hr hdvd hlo hhi

theorem coalesce :
    Confined b (b.coalesce r.1 r.2 pa o levels) (fun x => x.2.2)
      (b.coalesceStores r.1 r.2 pa o levels) fun x => x.2.1 ≤ maxOrder ∧ x.2.2.Fits x.1 x.2.1 := by
  induction levels generalizing b pa o with
  | zero => exact .done (.refl h) ⟨Nat.le.intro hl, hdvd, r, hr, hlo, hhi⟩
  | succ levels ih =>
    have ho : o ≤ maxOrder := by omega
    rw [coalesceStores, Buddy.coalesce]
    split_ifs with hin
    · exact .done (.refl h) ⟨ho, hdvd, r, hr, hlo, hhi⟩
    · push Not at hin
      obtain ⟨hblo, hbhi, hbf⟩ := hin
      have ha : Block.Aligned pageSize ⟨pa, o⟩ := by
        rwa [Block.Aligned, Block.size_pageSize]
      obtain ⟨z, hz, hc⟩ := buddy_halves ha
      have hdz := (blockSize_dvd_succ o).trans hz
      have hbu : b.Fits (pa ^^^ blockSize o) o := by
        refine ⟨?_, r, hr, hblo, by omega⟩
        rcases hc with ⟨-, heq⟩ | ⟨-, heq⟩
        · rw [heq]
          exact Nat.dvd_add hdz (Nat.dvd_refl _)
        · rw [heq]
          exact hdz
      have hmin : min pa (pa ^^^ blockSize o) = z := by
        rcases hc with ⟨hpa, heq⟩ | ⟨hpa, heq⟩ <;> omega
      have hb : r.1 ≤ z ∧ z + blockSize (o + 1) ≤ r.2 := by
        rw [blockSize_succ]
        rcases hc with ⟨hpa, heq⟩ | ⟨hpa, heq⟩ <;> omega
      rw [mergePath, hmin, List.forall_mem_cons] at ht
      have hu := h.unlink ht.1 ho hbu
      rw [hmin]
      cases hre : b.unlink (pa ^^^ blockSize o) o with
      | error e => exact .panic fun w hw => hu.within w (by simpa using hw)
      | ok result =>
        obtain ⟨merged, b₁⟩ := result
        obtain ⟨hm, hkeep⟩ := hu.returns _ hre
        refine .trans hu.within hm ?_
        cases merged with
        | false => exact .done (.refl hm.anchored) ⟨ho, hdvd, r, hm.regions ▸ hr, hlo, hhi⟩
        | true =>
          refine ih hm.anchored (fun x hx => hkeep x.1 x.2 ?_ (ht.2 x hx)) (by omega)
            (hm.regions ▸ hr) hz hb.1 hb.2
          have := lt_of_mem_mergePath hx
          omega

theorem coalesce_push :
    Confined b (b.coalesce r.1 r.2 pa o levels) (fun x => x.2.2.push x.1 x.2.1)
      (b.coalescePushStores r.1 r.2 pa o levels) fun _ => True := by
  have hme := h.coalesce levels ht hl hr hdvd hlo hhi
  rw [coalescePushStores]
  cases hre : b.coalesce r.1 r.2 pa o levels with
  | error e => exact .panic fun w hw => hme.within w (by simpa using hw)
  | ok result =>
    obtain ⟨hm, ho', hf⟩ := hme.returns _ hre
    refine .trans hme.within hm ⟨hm.anchored.pushStores_within ho' hf, fun x heq => ?_⟩
    cases heq
    exact ⟨hm.anchored.push ho' hf, trivial⟩

end Coalesce

theorem free (pa order : Nat)
    (ht : ∀ x ∈ mergePath pa order (maxOrder - order), b.TaggedLinkFits x.1 x.2) :
    Confined b (b.free pa order) id (b.freeStores pa order) fun _ => True := by
  unfold freeStores Buddy.free
  by_cases hmax : maxOrder < order
  · rw [if_pos (Or.inl hmax), if_pos hmax]
    exact .error
  by_cases hn : b.regions = []
  · rw [if_pos (Or.inr hn), if_neg hmax, if_pos hn]
    exact .error
  rw [if_neg (not_or.mpr ⟨hmax, hn⟩), if_neg hmax, if_neg hn]
  cases hadd : addU64 b.freeBytes (blockSize order) with
  | error e => exact .error
  | ok freeBytes =>
    have hregions : ({ b with freeBytes := freeBytes } : Buddy).regions = b.regions := rfl
    have hregionOf : ({ b with freeBytes := freeBytes } : Buddy).regionOf pa = b.regionOf pa := rfl
    have htc : ∀ x ∈ mergePath pa order (maxOrder - order),
        ({ b with freeBytes := freeBytes } : Buddy).TaggedLinkFits x.1 x.2 := ht
    have hc : Moved b { b with freeBytes := freeBytes } [] :=
      (Moved.refl h).congr rfl rfl rfl rfl rfl rfl
    have hre : Confined b (Buddy.refuse { b with freeBytes := freeBytes } order) id []
        fun _ => True := by
      refine ⟨nofun, fun b' heq => ?_⟩
      obtain ⟨_, -, heq⟩ := bind_eq_ok heq
      obtain ⟨_, -, heq⟩ := bind_eq_ok heq
      cases heq
      exact ⟨hc.congr rfl rfl rfl rfl rfl rfl, trivial⟩
    simp only [bind, Except.bind]
    rw [hregionOf]
    cases hregion : b.regionOf pa with
    | none => exact hre
    | some r =>
      have hr := List.mem_of_find?_eq_some hregion
      have hin := List.find?_some hregion
      simp only [Bool.and_eq_true, decide_eq_true_eq] at hin
      dsimp only
      by_cases hend : r.2 - pa < blockSize order
      · rw [if_pos (Or.inl hend), if_pos hend]
        exact hre
      by_cases ha : pa % blockSize order ≠ 0
      · rw [if_pos (Or.inr ha), if_neg hend, if_pos ha]
        exact hre
      rw [if_neg (not_or.mpr ⟨hend, ha⟩), if_neg hend, if_neg ha]
      generalize ({ b with freeBytes := freeBytes } : Buddy) = c at *
      cases c.scanContaining pa order r.1 32 b.nonempty with
      | error e => exact .error
      | ok =>
        have hdvd := Nat.dvd_of_mod_eq_zero (not_not.mp ha)
        have hm := hc.anchored.coalesce_push (maxOrder - order) htc (by omega) (hregions ▸ hr)
          hdvd hin.1 (by omega)
        refine Confined.trans (l := []) nofun hc ⟨hm.within, fun b' heq => ?_⟩
        dsimp only at heq
        split at heq
        · cases heq
        · rename_i result hresult
          cases heq
          exact hm.returns _ hresult

/-! ### Adding a region -/

theorem carve {addr : Nat} {r : Nat × Nat} (pages : Nat) (hr : r ∈ b.regions)
    (ha : pageSize ∣ addr) (hlo : r.1 ≤ addr) (hl : r.2 < 2 ^ 64) :
    Confined b (b.carve addr r.2 pages) id (b.carveStores addr r.2 pages) fun _ => True := by
  induction pages generalizing b addr with
  | zero => exact .done (.refl h) trivial
  | succ pages ih =>
    rw [carveStores, Buddy.carve]
    by_cases hlt : addr < r.2
    · rw [if_pos hlt, if_pos hlt]
      have hdvd : blockSize (carveOrder addr r.2) ∣ addr :=
        blockSize_carveOrder_dvd (hlt.trans hl) ha
      have hhi := blockSize_carveOrder_le hlt ha (h.pages r hr)
      have hf : b.Fits addr (carveOrder addr r.2) := ⟨hdvd, r, hr, hlo, hhi⟩
      have ho := carveOrder_le addr r.2
      have hwi := h.pushStores_within ho hf
      have hm := h.push ho hf
      dsimp only
      cases addU64 (b.push addr (carveOrder addr r.2)).freeBytes
          (blockSize (carveOrder addr r.2)) with
      | error e => exact .panic fun w hw => hwi w (by simpa using hw)
      | ok freeBytes =>
        have hc : Moved b
            { b.push addr (carveOrder addr r.2) with freeBytes := freeBytes } _ :=
          hm.congr rfl rfl rfl rfl rfl rfl
        have hr' := hr
        rw [← hc.regions] at hr'
        exact .trans hwi hc (ih hc.anchored hr'
          (Nat.dvd_add ha (pageSize_dvd_blockSize _)) (Nat.le_add_right_of_le hlo))
    · rw [if_neg hlt, if_neg hlt]
      exact .done (.refl h) trivial

theorem record {r : Nat × Nat} (hr : pageSize ∣ r.2) (edge : Nat) :
    Anchored { b with edgeDroppedBytes := edge, regions := b.regions ++ [r] } where
  heads o ho := (h.heads o ho).imp_right fun ⟨hdvd, s, hs, hin⟩ =>
    ⟨hdvd, s, List.mem_append_left _ hs, hin⟩
  pages s hs := by
    rcases List.mem_append.mp hs with hs | hs
    · exact h.pages s hs
    · rw [List.mem_singleton.mp hs]
      exact hr
  nonempty := h.nonempty

/-- A range adds at most one region, and all stores are inside what is recorded then. -/
theorem addRegion (start len : Nat) :
    ∃ c : Buddy, b.regions ⊆ c.regions ∧ c.mem = b.mem ∧
      Confined c (b.addRegion start len) id (b.addRegionStores start len) fun _ => True := by
  have hn : ∀ {f : Except Panic Buddy}, Confined b f id [] (fun _ => True) →
      ∃ c : Buddy, b.regions ⊆ c.regions ∧ c.mem = b.mem ∧ Confined c f id [] fun _ => True :=
    fun hf => ⟨b, List.Subset.refl _, rfl, hf⟩
  have hm : Confined b (b.malformed len) id [] fun _ => True := by
    refine ⟨nofun, fun b' heq => ?_⟩
    obtain ⟨_, -, heq⟩ := bind_eq_ok heq
    cases heq
    exact ⟨(Moved.refl h).congr rfl rfl rfl rfl rfl rfl, trivial⟩
  unfold addRegionStores Buddy.addRegion
  cases ha : checkedNextMultipleOf start pageSize with
  | none => exact hn hm
  | some addr =>
  cases hl : checkedAdd start len with
  | none => exact hn hm
  | some limit =>
  obtain ⟨hdvd, -, -, hlt, hro, hla⟩ := rounded_range ha hl
  dsimp only
  generalize limit &&& notU 64 (pageSize - 1) = last at *
  by_cases he : last ≤ addr
  · rw [if_pos he, if_pos he]
    exact hn hm
  rw [if_neg he, if_neg he]
  cases hs : addU64 (addr - start) (limit - last) with
  | error e => exact hn .error
  | ok slop =>
  simp only [bind, Except.bind]
  cases hed : addU64 b.edgeDroppedBytes slop with
  | error e => exact hn .error
  | ok edge =>
  dsimp only [andThen_ok]
  by_cases hfu : b.regions.length = maxRegions
  · rw [if_pos hfu, if_pos hfu]
    refine hn ⟨nofun, fun b' heq => ?_⟩
    obtain ⟨_, -, heq⟩ := bind_eq_ok heq
    obtain ⟨_, -, heq⟩ := bind_eq_ok heq
    cases heq
    exact ⟨(Moved.refl h).congr rfl rfl rfl rfl rfl rfl, trivial⟩
  · rw [if_neg hfu, if_neg hfu]
    have hr := h.record (r := (addr, last)) hro edge
    exact ⟨{ b with edgeDroppedBytes := edge, regions := b.regions ++ [(addr, last)] },
      List.subset_append_left _ _, rfl, hr.carve ((last - addr) / pageSize)
        (List.mem_append_right _ (List.mem_singleton_self _)) hdvd (le_rfl)
        (hla.trans_lt hlt)⟩

end Anchored

end Buddy

/-! ### Runs against an adversary -/

namespace Sys

variable {s t : Sys} {call : Call}

/-- The calls the adversary may make: disjoint ranges are offered, any block is
freed, and any word inside a recorded region is written. -/
def Exposed (s : Sys) : Call → Prop
  | .addRegion start len =>
    start < 2 ^ 64 ∧ len < 2 ^ 64 ∧ ∀ p ∈ s.offered, RangesApart (start, len) p
  | .alloc _ => True
  | .free _ _ => True
  | .write addr _ => 8 ∣ addr ∧ ∃ r ∈ s.buddy.regions, r.1 ≤ addr ∧ addr + 8 ≤ r.2

instance (s : Sys) : (call : Call) → Decidable (s.Exposed call)
  | .addRegion _ _ => inferInstanceAs (Decidable (_ ∧ _ ∧ _))
  | .alloc _ => inferInstanceAs (Decidable True)
  | .free _ _ => inferInstanceAs (Decidable True)
  | .write _ _ => inferInstanceAs (Decidable (_ ∧ ∃ r ∈ s.buddy.regions, _ ∧ _))

/-- The links a call may follow name blocks that fit into their region, if they pass
for links at all. -/
def LinksFit (s : Sys) : Call → Prop
  | .alloc order => s.buddy.HeadLinkFits order
  | .free pa order =>
    ∀ x ∈ Buddy.mergePath pa order (maxOrder - order), s.buddy.TaggedLinkFits x.1 x.2
  | _ => True

instance (s : Sys) : (call : Call) → Decidable (s.LinksFit call)
  | .addRegion _ _ => inferInstanceAs (Decidable True)
  | .alloc _ => inferInstanceAs (Decidable (Buddy.HeadLinkFits _ _))
  | .free _ _ => inferInstanceAs (Decidable (∀ x ∈ Buddy.mergePath _ _ _, _))
  | .write _ _ => inferInstanceAs (Decidable True)

/-- The stores the allocator issues during a call. -/
def stores (s : Sys) : Call → List Store
  | .addRegion start len => s.buddy.addRegionStores start len
  | .alloc order => s.buddy.allocStores order
  | .free pa order => s.buddy.freeStores pa order
  | .write _ _ => []

/-- One call of the exposed system that returns. -/
def expose (s : Sys) (call : Call) : Option Sys :=
  if s.Exposed call then (s.perform call).toOption else none

theorem expose_eq_some : s.expose call = some t ↔ s.Exposed call ∧ s.perform call = .ok t :=
  ite_toOption_eq_some

/-- No recorded region contains the word. -/
def Outside (s : Sys) (a : Nat) : Prop := ∀ r ∈ s.buddy.regions, ¬ (r.1 ≤ a ∧ a + 8 ≤ r.2)

theorem Outside.of_subset {a : Nat} (h : t.Outside a) (hsub : s.buddy.regions ⊆ t.buddy.regions) :
    s.Outside a := fun r hr => h r (hsub hr)

/-- Stores inside the regions do not reach a word outside them. -/
theorem Outside.mem_eq {b : Buddy} {ws : List Store} {a : Nat} (h : t.Outside a)
    (hwi : ∀ w ∈ ws, b.Within w) (hm : Buddy.Moved b t.buddy ws) :
    t.buddy.mem a = b.mem a := by
  refine hm.mem a fun w hw heq => ?_
  obtain ⟨hre, r, hr, hin⟩ := hwi w hw
  subst heq
  rw [hre, ← hm.regions] at hr
  exact h r hr hin

/-- The block a call hands out. -/
def Returns (s : Sys) : Call → Block → Prop
  | .alloc order, c => c.order = order ∧ ∃ b', s.buddy.alloc order = .ok (some c.base, b')
  | _, _ => False

/-- What one call does: its stores and the block it returns are inside, and it leaves
the allocator anchored and the words outside alone. -/
theorem exposed_call (h : s.buddy.Anchored) (hexp : s.Exposed call) (hfit : s.LinksFit call) :
    (∀ w ∈ s.stores call, w.Inside) ∧ (∀ c, s.Returns call c → s.buddy.Fits c.base c.order) ∧
      ∀ t, s.perform call = .ok t →
        t.buddy.Anchored ∧ s.buddy.regions ⊆ t.buddy.regions ∧
          ∀ a, t.Outside a → t.buddy.mem a = s.buddy.mem a := by
  cases call with
  | addRegion start len =>
    obtain ⟨c, hsub, hmem, had⟩ := h.addRegion start len
    refine ⟨fun w hw => (had.within w hw).2, fun c hc => hc.elim, fun t hp => ?_⟩
    obtain ⟨b', hadd, heq⟩ := bind_eq_ok hp
    cases heq
    have hm := (had.returns b' hadd).1
    exact ⟨hm.anchored, hm.regions ▸ hsub,
      fun a ha => (ha.mem_eq had.within hm).trans (congrFun hmem a)⟩
  | alloc order =>
    have ht := h.alloc hfit
    refine ⟨fun w hw => (ht.within w hw).2, ?_, fun t hp => ?_⟩
    · rintro c ⟨rfl, b', hal⟩
      exact (ht.returns _ hal).2 _ rfl
    · obtain ⟨⟨popped, b'⟩, hal, heq⟩ := bind_eq_ok hp
      have hm := (ht.returns _ hal).1
      have hb : t.buddy = b' := by cases popped <;> cases heq <;> rfl
      subst hb
      exact ⟨hm.anchored, hm.regions ▸ List.Subset.refl _,
        fun a ha => ha.mem_eq ht.within hm⟩
  | free pa order =>
    have hf := h.free pa order hfit
    refine ⟨fun w hw => (hf.within w hw).2, fun c hc => hc.elim, fun t hp => ?_⟩
    obtain ⟨b', hfr, heq⟩ := bind_eq_ok hp
    cases heq
    have hm := (hf.returns b' hfr).1
    exact ⟨hm.anchored, hm.regions ▸ List.Subset.refl _,
      fun a ha => ha.mem_eq hf.within hm⟩
  | write addr value =>
    refine ⟨fun w hw => (by cases hw), fun c hc => hc.elim, fun t hp => ?_⟩
    cases hp
    refine ⟨⟨h.heads, h.pages, h.nonempty⟩, List.Subset.refl _, fun a ha => ?_⟩
    obtain ⟨-, r, hr, hin⟩ := hexp
    exact update_of_ne (show a ≠ addr from fun heq => ha r hr (heq ▸ hin)) ..

/-- The calls of an exposed system in which every link followed fits. -/
def FittingStep (s : Sys) (call : Call) (t : Sys) : Prop :=
  s.expose call = some t ∧ decide (s.LinksFit call) = true

/-- Whatever is written into the recorded regions: while the links that calls follow
fit, the allocator stores only inside the recorded regions, hands out only blocks
that lie wholly inside one, and never changes a word outside them. -/
theorem corruption_confined {mem : Nat → Nat} {calls : List Call} {s : Sys}
    (hrun : Run FittingStep (Sys.start mem) calls s) :
    (∀ call, s.Exposed call → s.LinksFit call →
      (∀ w ∈ s.stores call, w.Inside) ∧
        ∀ c, s.Returns call c → ∃ r ∈ s.buddy.regions,
          r.1 ≤ c.base ∧ c.base + blockSize c.order ≤ r.2) ∧
    ∀ a, s.Outside a → s.buddy.mem a = mem a := by
  have hinv : s.buddy.Anchored ∧ ∀ a, s.Outside a → s.buddy.mem a = mem a := by
    refine hrun.invariant
      (p := fun s => s.buddy.Anchored ∧ ∀ a, s.Outside a → s.buddy.mem a = mem a) ?_ ?_
    · rintro s call t ⟨hanchored, hmem⟩ ⟨hstep, hfit⟩
      obtain ⟨hexp, hperform⟩ := expose_eq_some.mp hstep
      obtain ⟨-, -, hrest⟩ := exposed_call hanchored hexp (of_decide_eq_true hfit)
      obtain ⟨hanchored', hsub, hkeep⟩ := hrest t hperform
      exact ⟨hanchored', fun a ha => (hkeep a ha).trans (hmem a (ha.of_subset hsub))⟩
    · refine ⟨⟨fun o _ => .inl rfl, fun r hr => ?_, Nat.two_pow_pos _⟩, fun a _ => rfl⟩
      cases hr
  refine ⟨fun call hexp hfit => ?_, hinv.2⟩
  obtain ⟨hstores, hreturns, -⟩ := exposed_call hinv.1 hexp hfit
  exact ⟨hstores, fun c hc => (hreturns c hc).2⟩

/-- A link overwritten with rubbish cuts its list short; the page freed afterwards is
handed out again. -/
theorem corruption_confined_truncated :
    ∃ s, Run FittingStep (Sys.start fun _ => 0)
      [.addRegion 0 12288, .alloc 0, .write 8200 77, .write 0 5, .alloc 1, .free 8192 0] s ∧
      s.buddy.truncatedLists = 1 ∧ s.Returns (.alloc 0) ⟨8192, 0⟩ ∧
      (∀ w ∈ s.stores (.alloc 0), w.Inside) ∧
      (∃ r ∈ s.buddy.regions, r.1 ≤ 8192 ∧ 8192 + blockSize 0 ≤ r.2) ∧
      ∀ a, s.Outside a → s.buddy.mem a = 0 := by
  refine exists_run_of_exec_guarded
    (p := fun s => s.LinksFit (.alloc 0) ∧ s.buddy.truncatedLists = 1 ∧
      (s.buddy.alloc 0).toOption.map Prod.fst = some (some 8192))
    (by decide +kernel) fun s hrun hfacts => ?_
  obtain ⟨hfit, htruncated, halloc⟩ := hfacts
  obtain ⟨hcalls, hmem⟩ := corruption_confined hrun
  obtain ⟨hstores, hblocks⟩ := hcalls (.alloc 0) trivial hfit
  obtain ⟨⟨popped, b'⟩, hok, rfl⟩ := Option.map_eq_some_iff.mp halloc
  have hreturns : s.Returns (.alloc 0) ⟨8192, 0⟩ := ⟨rfl, b', ok_of_toOption hok⟩
  exact ⟨htruncated, hreturns, hstores, hblocks _ hreturns, hmem⟩

def ExposedStep (s : Sys) (call : Call) (t : Sys) : Prop := s.expose call = some t

/-- Three pages: a block of order 1 at 0 and a single page at 8192. With the next link
of the first pointed at the second, `alloc` hands out two pages at 8192, past the end
of the region; or it splits them and stores into the page behind the region. -/
theorem last_page_passes_for_two :
    (∃ s, Run ExposedStep (Sys.start fun _ => 0)
      [.addRegion 0 12288, .addRegion 65536 16384, .write 0 8192, .alloc 1] s ∧
      s.buddy.regions = [(0, 12288), (65536, 81920)] ∧ s.Returns (.alloc 1) ⟨8192, 1⟩) ∧
    ∃ s, Run ExposedStep (Sys.start fun _ => 0)
      [.addRegion 0 12288, .addRegion 65536 16384, .write 0 8192, .alloc 1, .alloc 0] s ∧
      s.Exposed (.alloc 0) ∧ ∃ w ∈ s.stores (.alloc 0), ¬ w.Inside := by
  constructor
  · refine exists_run_of_exec
      (p := fun s => s.buddy.regions = [(0, 12288), (65536, 81920)] ∧
        (s.buddy.alloc 1).toOption.map Prod.fst = some (some 8192))
      (by decide +kernel) fun s _ hfacts => ⟨hfacts.1, rfl, ?_⟩
    obtain ⟨⟨popped, b'⟩, hok, rfl⟩ := Option.map_eq_some_iff.mp hfacts.2
    exact ⟨b', ok_of_toOption hok⟩
  · refine exists_run_of_exec
      (p := fun s => ∃ w ∈ s.stores (.alloc 0), ¬ w.Inside)
      (by decide +kernel) fun s _ hstore => ⟨trivial, hstore⟩

end Sys

end Qunix.Mm
