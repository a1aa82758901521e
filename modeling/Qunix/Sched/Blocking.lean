/-
Calls that block, and the interrupt flag they were entered with.

`schedule`, `park` and `block_on` may return on another CPU, long after they were
entered. `Traced` is the scheduler machine with a list, for every thread, of the calls it
is in, each with the interrupt flag at its entry. Nothing of the machine reads the list.
`block_on` is two more kinds of code: the polls, during which the thread does what it
likes as long as the flag is the same at the end, and the calls of `park` between them.

`Irq::restore` turns interrupts on and never off. A call of `park` that was entered
masked is `spoiled` when the check after its halt finds the thread woken: the halt has
turned interrupts on, and nothing turns them off again on this way out.
-/

import Qunix.Sched.Elsewhere

namespace Qunix.Sched

open Function

variable {n : Nat}

/-! ### Calls -/

/-- The functions whose returns are watched. `yield_now` is `schedule`. -/
inductive Fn where
  | schedule
  | park
  | blockOn
deriving DecidableEq, Repr

/-- Where `block_on` stands. -/
inductive Await where
  /-- In a poll that began with this flag. -/
  | polling (start : Bool)
  /-- The poll was not ready: about to call `park`, or in it. -/
  | parking
deriving DecidableEq, Repr

/-- A call in progress. -/
inductive Call where
  | schedule (entry : Bool)
  | park (entry spoiled : Bool)
  | blockOn (entry spoiled : Bool) (stage : Await)
deriving DecidableEq, Repr

namespace Call

def fn : Call → Fn
  | schedule _ => .schedule
  | park _ _ => .park
  | blockOn _ _ _ => .blockOn

/-- The interrupt flag when the call was entered. -/
def entry : Call → Bool
  | schedule entry => entry
  | park entry _ => entry
  | blockOn entry _ _ => entry

/-- The call is a `park` that was entered masked and was found woken by the check after
its halt, or a `block_on` that made such a call. -/
def spoiled : Call → Bool
  | schedule _ => false
  | park _ spoiled => spoiled
  | blockOn _ spoiled _ => spoiled

/-- `block_on` is about to call `park`. -/
def waits : List Call → Bool
  | blockOn _ _ .parking :: _ => true
  | _ => false

end Call

/-- The frame on top is the last of a call of `schedule`. -/
def endsSchedule : List Tail → Bool
  | .drop _ :: .restore _ :: _ => false
  | .drop _ :: _ => true
  | .restore _ :: .reap :: _ => false
  | .restore _ :: _ => true
  | _ => false

/-- After a `park`, with the flag it left: `block_on` polls again. -/
def resume (flag spoiled : Bool) : List Call → List Call
  | .blockOn entry before .parking :: calls =>
    .blockOn entry (before || spoiled) (.polling flag) :: calls
  | calls => calls

/-- The calls of a thread after a step of its own, between the two flags. -/
def callsAfter (tail : List Tail) (flag flag' : Bool) (calls : List Call) : Local → List Call
  | .frame => if endsSchedule tail then calls.tail else calls
  | .park => .park flag false :: calls
  | .parkReturn =>
    match calls with
    | .park _ spoiled :: calls => resume flag' spoiled calls
    | calls => calls
  | _ => calls

/-- The check after the halt finds the thread woken. -/
def spoil (base : Base) (parked : Bool) (calls : List Call) : List Call :=
  match base, parked, calls with
  | .park _ .recheck, false, .park false _ :: calls => .park false true :: calls
  | _, _, calls => calls

/-! ### The machine with its calls -/

structure Traced (n : Nat) where
  sys : St n
  calls : ThreadId → List Call

inductive Turn (n : Nat) where
  | sched (a : Act n)
  /-- The thread calls `block_on`. -/
  | blockOn (c : Fin n)
  /-- The poll returns `Pending`. -/
  | pending (c : Fin n)
  /-- The poll returns `Ready`, and so does `block_on`. -/
  | ready (c : Fin n)

/-- Own code of a thread other than a call of `park`. -/
def Act.strays : Act n → Bool
  | .run _ (.setIrq _) => true
  | .run _ .exit => true
  | .enter _ .yield => true
  | .spawn _ _ _ _ _ => true
  | _ => false

namespace Traced

def boot (n : Nat) : Traced n where
  sys := St.boot n
  calls := fun _ => []

/-- The calls after the step `a` from `s` to `t`. A timer interrupt masks before it calls
`schedule`. -/
def trace (s t : St n) (calls : ThreadId → List Call) : Act n → ThreadId → List Call
  | .run c a =>
    match s.running c with
    | some me =>
      update calls me (callsAfter (s.tail me) (s.irqOn c) (t.irqOn c) (calls me) a)
    | none => calls
  | .enter c e =>
    match s.running c with
    | some me =>
      update calls me (.schedule (if e = .tick then false else s.irqOn c) :: calls me)
    | none => calls
  | .parkCheck c =>
    match s.running c with
    | some me => update calls me (spoil (s.base me) (s.parked me) (calls me))
    | none => calls
  | .spawn _ _ _ _ _ => update calls ⟨s.nextId⟩ []
  | .initLock _ _ => update calls ⟨s.nextId⟩ []
  | _ => calls

/-- `a` is not what the thread on its CPU does next: that one is about to call `park`. -/
def barred (s : Traced n) (a : Act n) : Bool :=
  a.strays && (a.cpu.bind s.sys.running).any fun me => Call.waits (s.calls me)

/-- A thread between two instructions of its own, and the call it is in. -/
def polling (s : Traced n) (c : Fin n) : Option (ThreadId × Bool × Bool × List Call) :=
  (s.sys.running c).bind fun me =>
    match s.sys.tail me, s.sys.base me, s.calls me with
    | [], .code, .blockOn entry spoiled (.polling start) :: calls =>
      -- The future has left the flag alone.
      if s.sys.irqOn c = start then some (me, entry, spoiled, calls) else none
    | _, _, _ => none

def step (s : Traced n) : Turn n → Option (Traced n)
  | .sched a =>
    if s.barred a then none
    else (s.sys.step a).map fun t => ⟨t, trace s.sys t s.calls a⟩
  | .blockOn c =>
    (s.sys.running c).bind fun me =>
      let flag := s.sys.irqOn c
      if s.sys.tail me = [] ∧ s.sys.base me = .code ∧ Call.waits (s.calls me) = false then
        some { s with
          calls := update s.calls me (.blockOn flag false (.polling flag) :: s.calls me) }
      else none
  | .pending c =>
    (s.polling c).map fun (me, entry, spoiled, calls) =>
      { s with calls := update s.calls me (.blockOn entry spoiled .parking :: calls) }
  | .ready c =>
    (s.polling c).map fun (me, _, _, calls) => { s with calls := update s.calls me calls }

def Step (s : Traced n) (turn : Turn n) (t : Traced n) : Prop := s.step turn = some t

/-- The function that returns in this step, with the CPU and the thread. -/
def returns (s : Traced n) : Turn n → Option (Fin n × ThreadId × Fn)
  | .sched (.run c .frame) =>
    (s.sys.running c).bind fun me =>
      if endsSchedule (s.sys.tail me) then some (c, me, .schedule) else none
  | .sched (.run c .parkReturn) => (s.sys.running c).map fun me => (c, me, .park)
  | .ready c => (s.sys.running c).map fun me => (c, me, .blockOn)
  | _ => none

variable {s t : Traced n} {c : Fin n} {me : ThreadId}

theorem polling_spec {entry spoiled : Bool} {calls : List Call}
    (h : s.polling c = some (me, entry, spoiled, calls)) :
    s.sys.running c = some me ∧ s.sys.tail me = [] ∧ s.sys.base me = .code ∧
      s.calls me = .blockOn entry spoiled (.polling (s.sys.irqOn c)) :: calls := by
  obtain ⟨x, hx, h⟩ := Option.bind_eq_some_iff.mp h
  split at h
  · rename_i ht hb hc
    split_ifs at h with hf
    cases h
    exact ⟨hx, ht, hb, hf ▸ hc⟩
  · cases h

theorem sched_spec {a : Act n} (h : s.step (.sched a) = some t) :
    s.barred a = false ∧ ∃ u, s.sys.step a = some u ∧ t = ⟨u, trace s.sys u s.calls a⟩ := by
  simp only [step] at h
  split_ifs at h with hbar
  obtain ⟨u, hu, rfl⟩ := Option.map_eq_some_iff.mp h
  exact ⟨by simpa using hbar, u, hu, rfl⟩

theorem blockOn_spec (h : s.step (.blockOn c) = some t) :
    ∃ me, s.sys.running c = some me ∧ s.sys.tail me = [] ∧ s.sys.base me = .code ∧
      Call.waits (s.calls me) = false ∧ t = { s with
        calls := update s.calls me
          (.blockOn (s.sys.irqOn c) false (.polling (s.sys.irqOn c)) :: s.calls me) } := by
  obtain ⟨me, hme, h⟩ := Option.bind_eq_some_iff.mp h
  split_ifs at h with hc
  cases h
  exact ⟨me, hme, hc.1, hc.2.1, hc.2.2, rfl⟩

theorem pending_spec (h : s.step (.pending c) = some t) :
    ∃ me entry spoiled calls, s.polling c = some (me, entry, spoiled, calls) ∧
      t = { s with calls := update s.calls me (.blockOn entry spoiled .parking :: calls) } := by
  obtain ⟨⟨me, entry, spoiled, calls⟩, hp, rfl⟩ := Option.map_eq_some_iff.mp h
  exact ⟨me, entry, spoiled, calls, hp, rfl⟩

theorem ready_spec (h : s.step (.ready c) = some t) :
    ∃ me entry spoiled calls, s.polling c = some (me, entry, spoiled, calls) ∧
      t = { s with calls := update s.calls me calls } := by
  obtain ⟨⟨me, entry, spoiled, calls⟩, hp, rfl⟩ := Option.map_eq_some_iff.mp h
  exact ⟨me, entry, spoiled, calls, hp, rfl⟩

end Traced

/-! ### What is left of the calls -/

/-- The flag and the mark of a `park` at each of its stages. -/
def ParkStage.Flagged (entry spoiled flag : Bool) : ParkStage → Prop
  | .top => flag = false ∧ spoiled = false
  | .sched => flag = false ∧ spoiled = false
  | .check => flag = false ∧ spoiled = false
  | .sti => flag = false ∧ spoiled = false
  | .halt => flag = true ∧ spoiled = false
  | .recheck => flag = true ∧ spoiled = false
  | .again => flag = true ∧ spoiled = false
  | .done => (flag || entry) = (entry || spoiled) ∧ (spoiled = true → entry = false)

/-- A `block_on` whose own code is at `flag`. -/
def Call.Awaits (flag : Bool) : Call → Prop
  | .blockOn entry spoiled (.polling start) =>
    (spoiled = true → entry = false) ∧ start = (entry || spoiled)
  | .blockOn entry spoiled .parking =>
    (spoiled = true → entry = false) ∧ flag = (entry || spoiled)
  | _ => False

/-- The calls of `block_on` that a thread is in. All but the innermost are in a poll. -/
def Awaiting (flag : Bool) : List Call → Prop
  | [] => True
  | call :: calls => call.Awaits flag ∧ ∀ outer ∈ calls, ∀ f, outer.Awaits f

/-- The calls under the thread's own code, when that runs with `flag`. -/
def AtBase (base : Base) (calls : List Call) (flag : Bool) : Prop :=
  match base with
  | .code => Awaiting flag calls
  | .park irq stage => ∃ spoiled rest, calls = .park irq spoiled :: rest ∧ Awaiting irq rest ∧
      stage.Flagged irq spoiled flag
  | _ => ∀ f, Awaiting f calls

/-- Where a call of `schedule` can have been made: in the thread's own code, or in the
handler of the timer. -/
def Bottom : List Tail → Prop
  | [] => True
  | .iret :: _ => True
  | _ => False

/-- The frames on a stack and the calls they belong to, when the CPU is at `flag`. Every
frame brings the flag to what the code under it goes on with. -/
inductive Unwinds (base : Base) : List Tail → List Call → Bool → Prop where
  | base {calls flag} : AtBase base calls flag → Unwinds base [] calls flag
  | start {tail calls flag} : Unwinds base tail calls true →
      Unwinds base (.start :: tail) calls flag
  | iret {tail calls flag} : Unwinds base tail calls true → Unwinds base (.iret :: tail) calls flag
  | switched {tail calls irq} : Bottom tail → Unwinds base tail calls irq →
      Unwinds base (.restore irq :: .reap :: tail) (.schedule irq :: calls) false
  | reaping {tail calls irq} : Bottom tail → Unwinds base tail calls irq →
      Unwinds base (.reap :: tail) (.schedule irq :: calls) irq
  | dropping {corpses tail calls irq} : Bottom tail → Unwinds base tail calls irq →
      Unwinds base (.drop corpses :: tail) (.schedule irq :: calls) irq
  | idleReaping {tail calls irq} : Bottom tail → Unwinds base tail calls irq →
      Unwinds base (.reap :: .restore irq :: tail) (.schedule irq :: calls) false
  | idleDropping {corpses tail calls irq} : Bottom tail → Unwinds base tail calls irq →
      Unwinds base (.drop corpses :: .restore irq :: tail) (.schedule irq :: calls) false
  | idle {tail calls irq} : Bottom tail → Unwinds base tail calls irq →
      Unwinds base (.restore irq :: tail) (.schedule irq :: calls) false

variable {base : Base} {tail : List Tail} {calls : List Call} {flag flag' irq : Bool}

theorem Awaiting.of_not_waits (h : Awaiting flag calls) (hw : Call.waits calls = false) (f : Bool) :
    Awaiting f calls := by
  cases calls with
  | nil => trivial
  | cons call calls =>
    refine ⟨?_, h.2⟩
    match call, h.1, hw with
    | .blockOn _ _ (.polling _), hc, _ => exact hc

theorem Awaiting.outer {call : Call} (h : Awaiting flag (call :: calls)) (f : Bool) :
    Awaiting f calls := by
  cases calls with
  | nil => trivial
  | cons outer calls =>
    exact ⟨h.2 outer List.mem_cons_self f, fun o ho => h.2 o (List.mem_cons_of_mem _ ho)⟩

/-- The innermost `block_on` goes on in a poll that begins where `park` has left the flag. -/
theorem Awaiting.resume {spoiled : Bool} (h : Awaiting irq calls)
    (hs : spoiled = true → irq = false) :
    Awaiting (irq || spoiled) (resume (irq || spoiled) spoiled calls) := by
  match calls, h with
  | [], _ => trivial
  | .blockOn entry before .parking :: calls, h =>
    obtain ⟨⟨hb, rfl⟩, hr⟩ := h
    refine ⟨⟨?_, ?_⟩, hr⟩
    · cases entry
      · simp
      · cases before <;> cases spoiled <;> simp_all
    · exact Bool.or_assoc ..
  | .blockOn entry before (.polling start) :: calls, h => exact ⟨h.1, h.2⟩

theorem AtBase.wake (h : AtBase base calls flag) : AtBase base.wake calls flag := by
  unfold Base.wake
  split <;> exact h

theorem Unwinds.wake (h : Unwinds base tail calls flag) : Unwinds base.wake tail calls flag := by
  induction h with
  | base h => exact .base h.wake
  | start _ ih => exact .start ih
  | iret _ ih => exact .iret ih
  | switched hb _ ih => exact .switched hb ih
  | reaping hb _ ih => exact .reaping hb ih
  | dropping hb _ ih => exact .dropping hb ih
  | idleReaping hb _ ih => exact .idleReaping hb ih
  | idleDropping hb _ ih => exact .idleDropping hb ih
  | idle hb _ ih => exact .idle hb ih

/-- Between parking and the call of `schedule` interrupts are off. -/
theorem Unwinds.masked (h : Unwinds base tail calls flag) (hb : base = .park irq .sched) :
    flag = false := by
  induction h with
  | base h =>
    subst hb
    obtain ⟨_, _, _, _, hf, -⟩ := h
    exact hf
  | start _ ih | iret _ ih => cases ih
  | switched | idleReaping | idleDropping | idle => rfl
  | reaping _ _ ih | dropping _ _ ih => exact ih

/-! ### What a thread's own steps do to them -/

theorem Bottom.ends {l : List Tail} (h : Bottom l) (irq : Bool) (corpses : List ThreadId) :
    endsSchedule (.restore irq :: l) = true ∧ endsSchedule (.drop corpses :: l) = true := by
  match l, h with
  | [], _ => exact ⟨rfl, rfl⟩
  | .iret :: _, _ => exact ⟨rfl, rfl⟩

section

variable {k k' : Ctl} (h : Unwinds k.base k.tail calls k.irqOn)

include h

/-- The last frame of a call of `schedule` leaves the flag at what it was at the entry. -/
theorem Unwinds.returned (hk : k.Runs .frame k') (he : endsSchedule k.tail = true) :
    ∃ rest, calls = .schedule k'.irqOn :: rest ∧ Unwinds k'.base k'.tail rest k'.irqOn := by
  cases hk with
  | start | iret => cases he
  | restore =>
    cases h with
    | switched => cases he
    | idle hb h => exact ⟨_, rfl, h⟩
  | drop =>
    cases h with
    | dropping hb h => exact ⟨_, rfl, h⟩
    | idleDropping => cases he

theorem Unwinds.frame (hk : k.Runs .frame k') (he : endsSchedule k.tail = false) :
    Unwinds k'.base k'.tail calls k'.irqOn := by
  cases hk with
  | start =>
    cases h with
    | start h => exact h
  | iret =>
    cases h with
    | iret h => exact h
  | restore =>
    cases h with
    | switched hb h => exact .reaping hb h
    | idle hb h =>
      rw [(hb.ends _ []).1] at he
      cases he
  | drop =>
    cases h with
    | dropping hb h =>
      rw [(hb.ends true _).2] at he
      cases he
    | idleDropping hb h => exact .idle hb h

/-- `park` returns with the flag of its entry, unless it is spoiled. -/
theorem Unwinds.parkReturn (hk : k.Runs .parkReturn k') :
    ∃ entry spoiled rest, calls = .park entry spoiled :: rest ∧
      (k'.irqOn = entry ↔ spoiled = false) ∧
      Unwinds k'.base k'.tail (resume k'.irqOn spoiled rest) k'.irqOn := by
  cases hk with
  | @parkReturn irq i r =>
    cases h with
    | base h =>
      obtain ⟨spoiled, rest, rfl, hr, hf, hs⟩ := h
      refine ⟨irq, spoiled, rest, rfl, ?_, .base ?_⟩
      · simp only [hf]
        cases spoiled
        · simp
        · simp [hs rfl]
      · simp only [hf]
        exact hr.resume hs

/-- A step of a thread. Where `block_on` is about to call `park`, that is the step. -/
theorem Unwinds.step {a : Local} (hk : k.Runs a k')
    (hown : (∃ e, a = .setIrq e) ∨ a = .exit → Call.waits calls = false) :
    Unwinds k'.base k'.tail (callsAfter k.tail k.irqOn k'.irqOn calls a) k'.irqOn := by
  have hf : k.Runs .frame k' → Unwinds k'.base k'.tail
      (if endsSchedule k.tail then calls.tail else calls) k'.irqOn := by
    intro hk
    cases he : endsSchedule k.tail with
    | true =>
      obtain ⟨rest, rfl, hr⟩ := h.returned hk he
      exact hr
    | false => exact h.frame hk he
  cases hk with
  | start => exact hf .start
  | restore => exact hf .restore
  | drop => exact hf .drop
  | iret => exact hf .iret
  | interrupt => exact h.wake
  | parkReturn =>
    obtain ⟨entry, spoiled, rest, rfl, -, h⟩ := h.parkReturn .parkReturn
    exact h
  | setIrq =>
    cases h with
    | base h => exact .base (Awaiting.of_not_waits h (hown (.inl ⟨_, rfl⟩)) _)
  | park =>
    cases h with
    | base h => exact .base ⟨false, calls, rfl, h, rfl, rfl⟩
  | mask | parkSti =>
    cases h with
    | base h =>
      obtain ⟨spoiled, rest, rfl, hr, -, rfl⟩ := h
      exact .base ⟨false, rest, rfl, hr, rfl, rfl⟩
  | exit =>
    cases h with
    | base h => exact .base (Awaiting.of_not_waits h (hown (.inr rfl)))
  | exitSti | activate | enterUser | syscall | sysret | sysExit | fault =>
    cases h with
    | base h => exact .base h

/-- Entering `schedule`, which will restore the flag and reap. -/
theorem Unwinds.enter {e : Enter} {out : ThreadState} (hk : k.Enters e k' out irq) :
    irq = (if e = .tick then false else k.irqOn) ∧ k'.irqOn = false ∧
      Unwinds k'.base (.restore irq :: .reap :: k'.tail) (.schedule irq :: calls) false := by
  cases hk with
  | tick => exact ⟨rfl, rfl, .switched trivial (.iret h.wake)⟩
  | yield | sysYield => exact ⟨rfl, rfl, .switched trivial h⟩
  | park | exit =>
    cases h with
    | base h => exact ⟨rfl, rfl, .switched trivial (.base h)⟩

end

theorem AtBase.check {parked : Bool} {stage : ParkStage} (h : AtBase base calls flag)
    (hs : (base = .park irq .check ∧ stage = if parked then .sti else .done) ∨
      (base = .park irq .recheck ∧ stage = if parked then .again else .done)) :
    AtBase (.park irq stage) (spoil base parked calls) flag := by
  rcases hs with ⟨rfl, rfl⟩ | ⟨rfl, rfl⟩
  · obtain ⟨spoiled, rest, rfl, hr, rfl, rfl⟩ := h
    refine ⟨false, rest, rfl, hr, ?_⟩
    cases parked
    · exact ⟨by simp, by simp⟩
    · exact ⟨rfl, rfl⟩
  · obtain ⟨spoiled, rest, rfl, hr, rfl, rfl⟩ := h
    cases parked with
    | true => exact ⟨false, rest, by simp [spoil], hr, rfl, rfl⟩
    | false =>
      cases irq with
      | true => exact ⟨false, rest, rfl, hr, rfl, by simp⟩
      | false => exact ⟨true, rest, rfl, hr, rfl, fun _ => rfl⟩

theorem AtBase.parkSection {stage : ParkStage} (h : AtBase (.park irq .top) calls flag)
    (hs : stage = .done ∨ stage = .sched) : AtBase (.park irq stage) calls flag := by
  obtain ⟨spoiled, rest, rfl, hr, rfl, rfl⟩ := h
  refine ⟨false, rest, rfl, hr, ?_⟩
  rcases hs with rfl | rfl
  · exact ⟨by simp, by simp⟩
  · exact ⟨rfl, rfl⟩

theorem unwinds_nil : Unwinds base [] calls flag ↔ AtBase base calls flag := by
  constructor
  · intro h
    cases h with
    | base h => exact h
  · exact .base

theorem Unwinds.reap {corpses : List ThreadId} (h : Unwinds base (.reap :: tail) calls flag) :
    Unwinds base (.drop corpses :: tail) calls flag := by
  cases h with
  | reaping hb h => exact .dropping hb h
  | idleReaping hb h => exact .idleDropping hb h

theorem Unwinds.noNext (h : Unwinds base (.restore irq :: .reap :: tail) calls flag)
    (exited : Bool) :
    Unwinds base ((if exited then [.restore irq] else [.reap, .restore irq]) ++ tail)
      calls flag := by
  cases h with
  | switched hb h =>
    cases exited
    · exact .idleReaping hb h
    · exact .idle hb h
  | idle hb => cases hb

end Qunix.Sched
