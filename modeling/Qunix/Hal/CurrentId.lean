/-
How a thread learns its own id.

`current_id` reads the address of the CPU's block through `gs:` and then loads
`current_thread` from that block. With interrupts enabled a thread can be moved
to another CPU between the two, and the load then finds whatever thread the old
CPU runs: `parks_another_thread`. `park`, `exit_current`, `adopt_address_space`,
`block_on` and `try_sleep_ticks` act on the id they got this way.

This machine is the scheduler machine with `current_id` taken apart. If no
thread is dispatched on another CPU between its two reads, every id is the
caller's (`current_id_is_caller`), and the machine does nothing that the
scheduler machine does not (`Knows.run`); what follows for the scheduler is in
`Qunix.Hal.OwnIds`.
-/

import Qunix.Sched.Elsewhere

namespace Qunix.Hal

open Function Qunix.Sched Qunix.Lib

variable {n : Nat}

/-- The callers of `current_id`. -/
inductive Op where
  | park
  | exit
  | adopt
  | blockOn
  | sleep
deriving DecidableEq, Repr

structure Ids (n : Nat) where
  st : St n
  /-- The block whose address a call has read; the load is still to come. -/
  block : ThreadId → Option (Op × Fin n)
  /-- The id that a call returned. -/
  self : ThreadId → Option (Op × ThreadId)
  /-- The operation, its caller and the thread it acted on. -/
  acted : List (Op × ThreadId × ThreadId)

/-! ### Operations on the id that was returned -/

section

variable (s : St n) (c : Fin n) (who : ThreadId)

/-- The locked part of `park`, on the entry of `who`. -/
def parkSectionOn : Option (St n) :=
  (s.running c).bind fun me =>
    match s.tail me, s.base me, s.table who with
    | [], .park irq .top, some t =>
      match t.park.park with
      | (.cancelled, p) =>
        some ((s.modify who fun t => { t with park := p }).setBase me (.park irq .done))
      | (.parked, p) =>
        some ((s.modify who fun t => { t with park := p, state := .blocked }).setBase me
          (.park irq .sched))
    | _, _, _ => none

/-- `is_parked(who)`. -/
def parkCheckOn : Option (St n) :=
  (s.running c).bind fun me =>
    match s.tail me, s.base me with
    | [], .park irq .check =>
      some (s.setBase me (.park irq (if s.parked who then .sti else .done)))
    | [], .park irq .recheck =>
      some (s.setBase me (.park irq (if s.parked who then .again else .done)))
    | _, _ => none

/-- `another_thread_is_alive(who)`. -/
def exitCheckOn : Option (St n) :=
  (s.running c).bind fun me =>
    match s.tail me, s.base me with
    | [], .exit .check =>
      if (List.range s.nextId).any fun i => decide (i ≠ who.val) && (s.table ⟨i⟩).isSome then
        some (s.setBase me (.exit .sti))
      else none
    | _, _ => none

def adoptAddressSpaceOn : Option (St n) :=
  (s.running c).bind fun me =>
    match s.tail me, s.base me, s.table who with
    | [], .userEntry root .adopt, some t =>
      if t.addressSpace = none then
        some ((s.modify who fun t => { t with addressSpace := some root }).setBase me
          (.userEntry root .enter))
      else none
    | _, _, _ => none

end

/-- The CPU on which a step executes the thread's own code. -/
def ownCode : Act n → Option (Fin n)
  | .run _ .frame => none
  | .run _ .interrupt => none
  | .run c _ => some c
  | .enter _ .tick => none
  | .enter c _ => some c
  | .parkSection c => some c
  | .parkCheck c => some c
  | .exitCheck c => some c
  | .adopt c => some c
  | .spawn c _ _ _ _ => some c
  | _ => none

/-- Where the code calls `current_id`, and for which operation. -/
def calls : Base → Op → Bool
  | .code, .adopt => false
  | .code, _ => true
  | .userEntry _ .adopt, .adopt => true
  | _, _ => false

namespace Ids

def boot (n : Nat) : Ids n where
  st := St.boot n
  block := fun _ => none
  self := fun _ => none
  acted := []

/-- `self_ptr`: the address of the block of the CPU the caller is on. -/
def readBlock (m : Ids n) (c : Fin n) (op : Op) : Option (Ids n) :=
  (m.st.running c).bind fun me =>
    if m.st.tail me = [] ∧ calls (m.st.base me) op = true ∧ m.block me = none then
      some { m with block := update m.block me (some (op, c)) }
    else none

/-- The load of `current_thread` from that block. -/
def loadCurrent (m : Ids n) (c : Fin n) : Option (Ids n) :=
  (m.st.running c).bind fun me =>
    match m.st.tail me, m.block me with
    | [], some (op, d) => some { m with
        block := update m.block me none
        self := update m.self me (some (op, (m.st.current d).getD ⟨noThread⟩)) }
    | _, _ => none

/-- `block_on` making its waker, or `try_sleep_ticks` its timer. -/
def register (m : Ids n) (c : Fin n) (op : Op) : Option (Ids n) :=
  (m.st.running c).bind fun me =>
    match m.self me with
    | some (op', who) =>
      if op = op' ∧ (op = .blockOn ∨ op = .sleep) ∧ m.st.tail me = [] ∧ m.block me = none then
        some { m with self := update m.self me none, acted := (op, me, who) :: m.acted }
      else none
    | none => none

/-- The id the thread on `c` holds for an operation. -/
def holder (m : Ids n) (c : Fin n) (op : Op) : Option (ThreadId × ThreadId) :=
  (m.st.running c).bind fun me =>
    (m.self me).bind fun (op', who) => if op = op' then some (me, who) else none

/-- An operation on the id its caller holds. -/
def act (m : Ids n) (c : Fin n) (op : Op) (f : ThreadId → Option (St n)) : Option (Ids n) :=
  (m.holder c op).bind fun (me, who) =>
    (f who).map fun st => { m with st := st, acted := (op, me, who) :: m.acted }

/-- A step after which the thread on `c` holds `v`. -/
def hold (m : Ids n) (c : Fin n) (a : Act n) (v : Option (Op × ThreadId)) : Option (Ids n) :=
  (m.st.running c).bind fun me =>
    (m.st.step a).map fun st => { m with st := st, self := update m.self me v }

def sched (m : Ids n) (a : Act n) : Option (Ids n) :=
  match a with
  -- `park` and `exit_current` begin with the id they were given.
  | .run c .park => (m.holder c .park).bind fun _ => (m.st.step a).map fun st => { m with st := st }
  | .run c .exit => (m.holder c .exit).bind fun _ => (m.st.step a).map fun st => { m with st := st }
  -- Here `exit_current` is called masked, and its two reads are one.
  | .run c .sysExit => m.hold c a ((m.st.current c).map fun id => (.exit, id))
  | .run c .fault => m.hold c a ((m.st.current c).map fun id => (.exit, id))
  | .run c .parkReturn => m.hold c a none
  | .parkSection c => m.act c .park (parkSectionOn m.st c)
  | .parkCheck c => m.act c .park (parkCheckOn m.st c)
  | .exitCheck c => m.act c .exit (exitCheckOn m.st c)
  | .adopt c => m.act c .adopt (adoptAddressSpaceOn m.st c)
  | a => (m.st.step a).map fun st => { m with st := st }

end Ids

inductive IdMove (n : Nat) where
  | sched (a : Act n)
  | readBlock (c : Fin n) (op : Op)
  | loadCurrent (c : Fin n)
  | register (c : Fin n) (op : Op)

/-- Between the two reads a thread's own code does nothing else. -/
def Ids.step (m : Ids n) : IdMove n → Option (Ids n)
  | .sched a =>
    if (ownCode a).all fun c => (m.st.running c).all fun me => (m.block me).isNone then m.sched a
    else none
  | .readBlock c op => m.readBlock c op
  | .loadCurrent c => m.loadCurrent c
  | .register c op => m.register c op

def Ids.Step (m : Ids n) (a : IdMove n) (m' : Ids n) : Prop := m.step a = some m'

/-- A thread between its two reads is dispatched only on the CPU whose block it
has read. -/
def Ids.stays (m : Ids n) : IdMove n → Bool
  | .sched (.decide c) =>
    match m.st.phase c with
    | .took _ _ next => (m.block next).all fun b => b.2 == c
    | _ => true
  | _ => true

/-! ### Acting on oneself -/

section

variable {s : St n} {c : Fin n} {me : ThreadId} (h : s.running c = some me)

include h

theorem parkSectionOn_self : parkSectionOn s c me = s.parkSection c := by
  rw [parkSectionOn, St.parkSection, h]
  rfl

theorem parkCheckOn_self : parkCheckOn s c me = s.parkCheck c := by
  rw [parkCheckOn, St.parkCheck, h]
  rfl

theorem exitCheckOn_self : exitCheckOn s c me = s.exitCheck c := by
  rw [exitCheckOn, St.exitCheck, h]
  rfl

theorem adoptAddressSpaceOn_self : adoptAddressSpaceOn s c me = s.adoptAddressSpace c := by
  rw [adoptAddressSpaceOn, St.adoptAddressSpace, h]
  rfl

end

namespace Ids

variable {m m' : Ids n} {c : Fin n} {a : Act n} {op : Op}

theorem holder_spec {me who : ThreadId} (h : m.holder c op = some (me, who)) :
    m.st.running c = some me ∧ m.self me = some (op, who) := by
  obtain ⟨me', hme, h⟩ := Option.bind_eq_some_iff.mp h
  obtain ⟨⟨op', who'⟩, hs, h⟩ := Option.bind_eq_some_iff.mp h
  simp only at h
  split_ifs at h with hop
  cases h
  exact ⟨hme, hop ▸ hs⟩

/-- The step acts on the id its caller holds. -/
def Acts (m : Ids n) (a : Act n) (m' : Ids n) : Prop :=
  ∃ c op me who, m.st.running c = some me ∧ m.self me = some (op, who) ∧ m'.self = m.self ∧
    m'.acted = (op, me, who) :: m.acted ∧ (who = me → m.st.step a = some m'.st)

/-- The step is one of the scheduler machine; at most the id that the thread on
some CPU holds is replaced by its own. -/
def Passes (m : Ids n) (a : Act n) (m' : Ids n) : Prop :=
  m.st.step a = some m'.st ∧ m'.acted = m.acted ∧
    (m'.self = m.self ∨ ∃ c me v, m.st.running c = some me ∧ m'.self = update m.self me v ∧
      ∀ op who, v = some (op, who) → m.st.current c = some who)

theorem act_spec {f : ThreadId → Option (St n)} (h : m.act c op f = some m')
    (hf : ∀ me, m.st.running c = some me → f me = m.st.step a) :
    m'.block = m.block ∧ m.Acts a m' := by
  obtain ⟨⟨me, who⟩, hh, h⟩ := Option.bind_eq_some_iff.mp h
  obtain ⟨t, ht, rfl⟩ := Option.map_eq_some_iff.mp h
  obtain ⟨hme, hs⟩ := holder_spec hh
  refine ⟨rfl, c, op, me, who, hme, hs, rfl, rfl, ?_⟩
  rintro rfl
  rw [← hf who hme]
  exact ht

theorem hold_spec {v : Option (Op × ThreadId)} (h : m.hold c a v = some m')
    (hv : ∀ op who, v = some (op, who) → m.st.current c = some who) :
    m'.block = m.block ∧ m.Passes a m' := by
  obtain ⟨me, hme, h⟩ := Option.bind_eq_some_iff.mp h
  obtain ⟨t, ht, rfl⟩ := Option.map_eq_some_iff.mp h
  exact ⟨rfl, ht, rfl, .inr ⟨c, me, v, hme, rfl, hv⟩⟩

theorem pass_spec (h : ((m.st.step a).map fun st => { m with st := st }) = some m') :
    m'.block = m.block ∧ m.Passes a m' := by
  obtain ⟨t, ht, rfl⟩ := Option.map_eq_some_iff.mp h
  exact ⟨rfl, ht, rfl, .inl rfl⟩

theorem sched_spec (h : m.sched a = some m') :
    m'.block = m.block ∧ (m.Acts a m' ∨ m.Passes a m') := by
  have he : ∀ c op who, ((m.st.current c).map fun id => (Op.exit, id)) = some (op, who) →
      m.st.current c = some who := by
    intro c op who hv
    obtain ⟨id, hid, heq⟩ := Option.map_eq_some_iff.mp hv
    cases heq
    exact hid
  unfold sched at h
  split at h
  · obtain ⟨_, -, h⟩ := Option.bind_eq_some_iff.mp h
    exact (pass_spec h).imp_right .inr
  · obtain ⟨_, -, h⟩ := Option.bind_eq_some_iff.mp h
    exact (pass_spec h).imp_right .inr
  · exact (hold_spec h (he _)).imp_right .inr
  · exact (hold_spec h (he _)).imp_right .inr
  · exact (hold_spec h (by simp)).imp_right .inr
  · exact (act_spec (a := .parkSection _) h fun me hme => parkSectionOn_self hme).imp_right .inl
  · exact (act_spec (a := .parkCheck _) h fun me hme => parkCheckOn_self hme).imp_right .inl
  · exact (act_spec (a := .exitCheck _) h fun me hme => exitCheckOn_self hme).imp_right .inl
  · exact (act_spec (a := .adopt _) h fun me hme => adoptAddressSpaceOn_self hme).imp_right .inl
  · exact (pass_spec h).imp_right .inr

theorem sched_of_step (h : m.step (.sched a) = some m') : m.sched a = some m' := by
  simp only [step] at h
  split_ifs at h
  exact h

/-- The reads, and what is kept of the id, are none of the scheduler's business. -/
theorem st_of_step {a : IdMove n} (hm : m.step a = some m') (ha : ∀ b, a ≠ .sched b) :
    m'.st = m.st := by
  cases a with
  | sched a => exact absurd rfl (ha a)
  | readBlock c op | loadCurrent c =>
    obtain ⟨me, -, hm⟩ := Option.bind_eq_some_iff.mp hm
    split at hm
    · cases hm
      rfl
    · cases hm
  | register c op =>
    obtain ⟨me, -, hm⟩ := Option.bind_eq_some_iff.mp hm
    split at hm
    · split_ifs at hm
      cases hm
      rfl
    · cases hm

end Ids

structure Knows (m : Ids n) : Prop where
  here : ∀ x op d, m.block x = some (op, d) → ∀ c, m.st.current c = some x → c = d
  old : ∀ x, m.block x ≠ none → x.val < m.st.nextId ∧ ∀ c, m.st.phase c ≠ .adopting x
  self : ∀ x op who, m.self x = some (op, who) → who = x
  acted : ∀ op x who, (op, x, who) ∈ m.acted → who = x

namespace Knows

open Ids

variable {m m' : Ids n} {c : Fin n}

theorem boot : Knows (Ids.boot n) where
  here := fun x op d h => by cases h
  old := fun x h => absurd rfl h
  self := fun x op who h => by cases h
  acted := fun op x who h => by cases h

variable {a : Act n} {op : Op}

section

variable (h : Knows m)

include h

/-- A thread that acts on itself takes a step of the scheduler machine. -/
theorem step_of_sched (hm : m.sched a = some m') :
    m.st.step a = some m'.st := by
  obtain ⟨-, ⟨c, op, me, who, -, hse, -, -, hs⟩ | ⟨hs, -⟩⟩ := sched_spec hm
  · exact hs (h.self me op who hse)
  · exact hs

theorem sched (hm : m.sched a = some m') (hg : m.stays (.sched a) = true) :
    Knows m' := by
  have hst := h.step_of_sched hm
  obtain ⟨hb, hca⟩ := sched_spec hm
  refine ⟨fun x op d hx c hcur => ?_, fun x hx => ?_, fun x op who hx => ?_, fun op x who hx => ?_⟩
  · rw [hb] at hx
    rcases St.step_current hst hcur with hcur | ⟨rfl, out, irq, ht⟩ | ⟨rfl, ha⟩
    · exact h.here x op d hx c hcur
    · simp only [stays, ht, hx, Option.all_some, beq_iff_eq] at hg
      exact hg.symm
    · exact absurd ha ((h.old x (by simp [hx])).2 c)
  · rw [hb] at hx
    obtain ⟨hlt, ha⟩ := h.old x hx
    refine ⟨Nat.lt_of_lt_of_le hlt (St.nextId_le_step hst), fun c hc => ?_⟩
    rcases St.step_adopting hst hc with hc | rfl
    · exact ha c hc
    · exact Nat.lt_irrefl _ hlt
  · rcases hca with ⟨c, op', me, who', -, -, hs, -⟩ | ⟨-, -, hs | ⟨c, me, v, hme, hs, hv⟩⟩
    · rw [hs] at hx
      exact h.self x op who hx
    · rw [hs] at hx
      exact h.self x op who hx
    · rw [hs] at hx
      rw [update_apply] at hx
      split_ifs at hx with hxm
      · subst hxm
        obtain ⟨-, hcur⟩ := St.running_eq_some.mp hme
        exact Option.some.inj ((hv op who hx).symm.trans hcur)
      · exact h.self x op who hx
  · rcases hca with ⟨c, op', me, who', -, hs, -, hac, -⟩ | ⟨-, hac, -⟩
    · rw [hac] at hx
      rcases List.mem_cons.mp hx with heq | hx
      · cases heq
        exact h.self _ _ _ hs
      · exact h.acted op x who hx
    · rw [hac] at hx
      exact h.acted op x who hx

theorem readBlock (hex : Exclusive m.st) (hm : m.readBlock c op = some m') :
    Knows m' := by
  obtain ⟨me, hme, hm⟩ := Option.bind_eq_some_iff.mp hm
  obtain ⟨-, hc⟩ := St.running_eq_some.mp hme
  split_ifs at hm
  cases hm
  refine { h with
    here := (forall_update_iff m.block fun x v => ∀ op d, v = some (op, d) →
      ∀ c', m.st.current c' = some x → c' = d).mpr ⟨fun op d hx c' hcur => ?_, fun x _ => h.here x⟩
    old := (forall_update_iff m.block fun x v => v ≠ none →
      x.val < m.st.nextId ∧ ∀ c', m.st.phase c' ≠ .adopting x).mpr
        ⟨fun _ => ⟨?_, fun c' hc' => ?_⟩, fun x _ => h.old x⟩ }
  · cases hx
    exact hex.current_inj hcur hc
  · exact hex.fresh me (.inl (hex.live_current hc).1)
  · exact (hex.adopting_ne hc').2 c hc

/-- The thread is still where it read the address, so it finds itself. -/
theorem loadCurrent (hm : m.loadCurrent c = some m') : Knows m' := by
  obtain ⟨me, hme, hm⟩ := Option.bind_eq_some_iff.mp hm
  obtain ⟨-, hc⟩ := St.running_eq_some.mp hme
  split at hm
  · rename_i op d ht hb
    obtain rfl := h.here me op d hb c hc
    cases hm
    refine { h with
      here := (forall_update_iff m.block fun x v => ∀ op d, v = some (op, d) →
        ∀ c', m.st.current c' = some x → c' = d).mpr ⟨nofun, fun x _ => h.here x⟩
      old := (forall_update_iff m.block fun x v => v ≠ none →
        x.val < m.st.nextId ∧ ∀ c', m.st.phase c' ≠ .adopting x).mpr
          ⟨fun hne => absurd rfl hne, fun x _ => h.old x⟩
      self := (forall_update_iff m.self fun x v => ∀ op who, v = some (op, who) → who = x).mpr
        ⟨fun op who hx => ?_, fun x _ => h.self x⟩ }
    rw [hc] at hx
    cases hx
    rfl
  · cases hm

theorem register (hm : m.register c op = some m') : Knows m' := by
  obtain ⟨me, -, hm⟩ := Option.bind_eq_some_iff.mp hm
  split at hm
  · rename_i op' who hs
    split_ifs at hm
    cases hm
    refine { h with
      self := (forall_update_iff m.self fun x v => ∀ op who, v = some (op, who) → who = x).mpr
        ⟨nofun, fun x _ => h.self x⟩
      acted := fun op x who hx => ?_ }
    rcases List.mem_cons.mp hx with heq | hx
    · cases heq
      exact h.self _ _ _ hs
    · exact h.acted op x who hx
  · cases hm

/-- With every thread knowing itself, a move is a step of the scheduler machine
or leaves its state alone. -/
theorem step_st {a : IdMove n} (hm : m.step a = some m') :
    m'.st = m.st ∨ ∃ act, m.st.step act = some m'.st := by
  cases a with
  | sched a => exact .inr ⟨a, h.step_of_sched (sched_of_step hm)⟩
  | readBlock | loadCurrent | register => exact .inl (st_of_step hm (by simp))

theorem step {a : IdMove n} (hex : Exclusive m.st) (hm : m.step a = some m')
    (hg : m.stays a = true) : Exclusive m'.st ∧ Knows m' := by
  constructor
  · rcases h.step_st hm with heq | ⟨act, hact⟩
    · exact heq ▸ hex
    · exact hex.step hact
  · cases a with
    | sched a => exact h.sched (sched_of_step hm) hg
    | readBlock c op => exact h.readBlock hex hm
    | loadCurrent c => exact h.loadCurrent hm
    | register c op => exact h.register hm

end

theorem run {as : List (IdMove n)}
    (hrun : Run (fun m a m' => Ids.Step m a m' ∧ m.stays a = true) (Ids.boot n) as m) :
    (Exclusive m.st ∧ Knows m) ∧ ∃ bs, Run St.Step (St.boot n) bs m.st := by
  refine hrun.project (p := fun m => Exclusive m.st ∧ Knows m) (f := Ids.st)
    (fun m a m' h hs => ?_) ⟨.boot, boot⟩
  obtain ⟨hex, hk⟩ := h
  exact ⟨hk.step hex hs.1 hs.2, hk.step_st hs.1⟩

end Knows

/-- If no thread is dispatched on another CPU between its two reads, `current_id`
returns the caller's id, and every operation acts on its caller. -/
theorem current_id_is_caller {as : List (IdMove n)} {m : Ids n}
    (hrun : Run (fun m a m' => Ids.Step m a m' ∧ m.stays a = true) (Ids.boot n) as m) :
    (∀ x op who, m.self x = some (op, who) → who = x) ∧
    ∀ op x who, (op, x, who) ∈ m.acted → who = x := by
  obtain ⟨⟨-, hknows⟩, -⟩ := Knows.run hrun
  exact ⟨hknows.self, hknows.acted⟩

/-- Two CPUs boot, and the first runs thread 2. -/
def startsThread (c d : Fin n) : List (Act n) :=
  bootCpu c ++ bootCpu d ++ spawnOn c ⟨2⟩ 4096 none ++ yieldTo c ++ [.run c .frame]

/-- A CPU steals the next thread in a queue and goes on with it. -/
def steals (d : Fin n) : List (Act n) :=
  [.enter d .yield, .takeLocal d, .stealFrom d false] ++ switchOver d ++ leaveSchedule d ++
    [.run d .frame]

/-- Thread 2 is preempted on the first CPU and goes on on the second. -/
def movesThread (c d : Fin n) : List (Act n) :=
  [.setPreemption true, .enter c .tick, .takeLocal c, .takeLast c] ++ switchOver c ++
    .markOnline c :: steals d

/-- A thread that is moved to another CPU after `current_id` has returned, and
then parks. -/
theorem current_id_is_caller_before_move :
    ∃ m : Ids 2, Run (fun m a m' => Ids.Step m a m' ∧ m.stays a = true) (Ids.boot 2)
      (List.map IdMove.sched (startsThread 0 1) ++ [.readBlock 0 .park, .loadCurrent 0] ++
        List.map IdMove.sched (movesThread 0 1 ++ [.run 1 .park, .parkSection 1])) m ∧
      m.self ⟨2⟩ = some (.park, ⟨2⟩) ∧ ∀ x who, (Op.park, x, who) ∈ m.acted → who = x := by
  refine exists_run_of_exec_guarded (by decide +kernel) fun m hrun hself => ⟨hself, ?_⟩
  exact (current_id_is_caller hrun).2 .park

/-- Preempted between the two reads and stolen by another CPU, the thread loads
the id of the thread that its old CPU runs, and parks that one. -/
theorem parks_another_thread :
    ∃ m : Ids 2, Run Ids.Step (Ids.boot 2)
      (List.map IdMove.sched (startsThread 0 1) ++ [.readBlock 0 .park] ++
        List.map IdMove.sched (movesThread 0 1) ++
        [.loadCurrent 1] ++ List.map IdMove.sched [.run 1 .park, .parkSection 1]) m ∧
      m.self ⟨2⟩ = some (.park, ⟨0⟩) ∧ (Op.park, ⟨2⟩, ⟨0⟩) ∈ m.acted ∧ m.st.parked ⟨0⟩ = true ∧
        m.st.current 0 = some ⟨0⟩ := by
  exact exists_run_of_exec (by decide +kernel) fun _ _ hfacts => hfacts

end Qunix.Hal
