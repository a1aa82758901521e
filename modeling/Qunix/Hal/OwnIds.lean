/-
The scheduler under the ids that its callers really have.

What `Qunix.Sched` says of a machine in which every thread knows itself holds of the machine
with the two reads of `current_id` as long as no thread is dispatched on another CPU between
them: such a run shows in the scheduler machine as a run (`Knows.run`). Where a thread is
moved there, `park` marks a thread that waits in a run queue; a wakeup queues it once more,
and two CPUs go on with it (`dispatched_twice`).
-/

import Qunix.Hal.CurrentId
import Qunix.Sched.InFlight
import Qunix.Sched.Wakeup

namespace Qunix.Hal

open Function Qunix.Sched Qunix.Lib

variable {n : Nat} {m : Ids n} {as : List (IdMove n)}

/-! ### Dispatches -/

/-- If no thread is dispatched on another CPU between its two reads, no thread is ever in two
places. A thread that a CPU is switching away from is resumed nowhere until the switch is
complete, and a parked thread is in no run queue. -/
theorem dispatched_once
    (hrun : Run (fun m a m' => Ids.Step m a m' ∧ m.stays a = true) (Ids.boot n) as m) :
    (∀ x, m.st.places x ≤ 1) ∧
    (∀ c w, (m.st.phase c).window = some w → ∀ d, m.st.current d ≠ some w.outgoing ∧
      (m.st.phase d).holding w.outgoing = 0 ∧ (m.st.queue d).count w.outgoing = 0) ∧
    ∀ x, m.st.parked x = true → ∀ c, (m.st.queue c).count x = 0 := by
  obtain ⟨⟨hex, -⟩, -⟩ := Knows.run hrun
  refine ⟨hex.once, fun c w hw => hex.outgoing_nowhere hw, fun x hx c => ?_⟩
  exact hex.count_of_parked hx

/-- Two CPUs, one of them in the middle of its first switch. -/
theorem dispatched_once_mid_switch :
    ∃ m : Ids 2, Run (fun m a m' => Ids.Step m a m' ∧ m.stays a = true) (Ids.boot 2)
      (List.map IdMove.sched (bootCpu 0 ++ bootCpu 1 ++ spawnOn 0 ⟨2⟩ 4096 none ++
        [.enter 0 .yield, .takeLocal 0, .decide 0, .setKernelStack 0])) m ∧
      m.st.current 0 = some ⟨2⟩ ∧ m.st.places ⟨0⟩ ≤ 1 ∧ m.st.current 1 ≠ some ⟨0⟩ := by
  refine exists_run_of_exec_guarded
    (p := fun m => m.st.current 0 = some ⟨2⟩ ∧
      (m.st.phase 0).window.map Window.outgoing = some ⟨0⟩)
    (by decide +kernel) fun m hrun hfacts => ?_
  obtain ⟨hcur, hwin⟩ := hfacts
  obtain ⟨w, hw, hout⟩ := Option.map_eq_some_iff.mp hwin
  obtain ⟨honce, hswitch, -⟩ := dispatched_once hrun
  exact ⟨hcur, honce _, hout ▸ (hswitch 0 w hw 1).1⟩

/-- Thread 2 reads the block of the first CPU, goes on on the second and loads the id of thread
3; thread 3 is preempted and queued, and then thread 2 parks it. -/
def misdirected (c d : Fin n) : List (IdMove n) :=
  List.map IdMove.sched (bootCpu c ++ bootCpu d ++ .markOnline c :: spawnOn c ⟨2⟩ 4096 none ++
    spawnOn c ⟨3⟩ 8192 none ++ .setPreemption true :: yieldTo c ++ [.run c .frame]) ++
  .readBlock c .park ::
  List.map IdMove.sched ([.enter c .tick, .takeLocal c] ++ switchOver c ++
    .run c .frame :: steals d) ++
  .loadCurrent d ::
  List.map IdMove.sched ([.enter c .tick, .takeLocal c, .takeLast c] ++ switchOver c ++
    [.run d .park, .parkSection d])

/-- A wakeup of thread 3 queues it on the second CPU; each CPU takes it from its own queue. -/
def takenTwice (c d : Fin n) : List (IdMove n) :=
  List.map IdMove.sched ([.unpark ⟨3⟩, .wakePush ⟨⟨3⟩, .normal, none⟩ d, .enter d .park,
    .takeLocal d, .decide d] ++ leaveSchedule c ++ [.enter c .yield, .takeLocal c, .decide c])

/-- A parked thread waits in a run queue; a few steps later two CPUs have dispatched it. -/
theorem dispatched_twice :
    ∃ m m' : Ids 2, Run Ids.Step (Ids.boot 2) (misdirected 0 1) m ∧
      (m.st.parked ⟨3⟩ = true ∧ (m.st.queue 0).count ⟨3⟩ = 1) ∧
      Run Ids.Step m (takenTwice 0 1) m' ∧
      m'.st.current 0 = some ⟨3⟩ ∧ m'.st.current 1 = some ⟨3⟩ := by
  have hexec : ((exec Ids.step (Ids.boot 2) (misdirected 0 1)).bind fun m =>
      (exec Ids.step m (takenTwice 0 1)).map fun m' =>
        decide ((m.st.parked ⟨3⟩ = true ∧ (m.st.queue 0).count ⟨3⟩ = 1) ∧
          m'.st.current 0 = some ⟨3⟩ ∧ m'.st.current 1 = some ⟨3⟩)) = some true := by
    decide +kernel
  obtain ⟨m, hm, hexec⟩ := Option.bind_eq_some_iff.mp hexec
  obtain ⟨m', hm', hfacts⟩ := Option.map_eq_some_iff.mp hexec
  obtain ⟨hparked, htwice⟩ := of_decide_eq_true hfacts
  exact ⟨m, m', run_of_exec hm, hparked, run_of_exec hm', htwice⟩

/-! ### Decisions -/

/-- From the decision to the end of the switch, other CPUs acting meanwhile, the incoming
thread is the CPU's own and no other's, is not dead, and owns the address space that was
copied; what is loaded is that. -/
theorem decision_in_force
    (hrun : Run (fun m a m' => Ids.Step m a m' ∧ m.stays a = true) (Ids.boot n) as m)
    {c : Fin n} {w : Window} (hw : (m.st.phase c).window = some w) :
    (∀ d, m.st.current d = some w.incoming ↔ d = c) ∧ w.incoming ∉ m.st.reapable ∧
      (m.st.table w.incoming).map Thread.addressSpace = some w.root ∧
      (m.st.phase c = .rooted w → m.st.cr3 c = w.root) := by
  obtain ⟨⟨hex, -⟩, bs, hbs⟩ := Knows.run hrun
  obtain ⟨-, hfl⟩ := hbs.invariant (p := fun s => Exclusive s ∧ InFlight s)
    (fun _ _ _ h hst => ⟨h.1.step hst, h.2.step h.1 hst⟩) ⟨.boot, .boot⟩
  have hcur := hfl.incoming c w hw
  refine ⟨fun d => ⟨fun hd => hex.current_inj hd hcur, ?_⟩, (hex.live_current hcur).2,
    hfl.root c w hw, hfl.rooted c w⟩
  rintro rfl
  exact hcur

/-- The boot thread yields to the one it has spawned. -/
theorem decision_in_force_yield :
    ∃ m : Ids 1, Run (fun m a m' => Ids.Step m a m' ∧ m.stays a = true) (Ids.boot 1)
        (List.map IdMove.sched (bootCpu 0 ++ spawnOn 0 ⟨1⟩ 4096 none ++
          [.enter 0 .yield, .takeLocal 0, .decide 0])) m ∧
      ∃ w, (m.st.phase 0).window = some w ∧
        (m.st.table w.incoming).map Thread.addressSpace = some w.root := by
  refine exists_run_of_exec_guarded (p := fun m => (m.st.phase 0).window.isSome = true)
    (by decide +kernel) fun m hrun hsome => ?_
  obtain ⟨w, hw⟩ := Option.isSome_iff_exists.mp hsome
  exact ⟨w, hw, (decision_in_force hrun hw).2.2.1⟩

/-! ### Wakeups -/

/-- The machine, with the record of the threads that were woken in their current call of
`park`. -/
structure Alert (n : Nat) where
  ids : Ids n
  woken : ThreadId → Bool

namespace Alert

variable {w : Alert n}

def boot (n : Nat) : Alert n := ⟨Ids.boot n, fun _ => false⟩

/-- What the scheduler machine shows of it. -/
def watch (w : Alert n) : Watch n := ⟨w.ids.st, w.woken⟩

def note (w : Alert n) : IdMove n → ThreadId → Bool
  | .sched a => w.watch.note a
  | _ => w.woken

def step (w : Alert n) (a : IdMove n) : Option (Alert n) :=
  (w.ids.step a).map fun m => ⟨m, w.note a⟩

def Step (w : Alert n) (a : IdMove n) (w' : Alert n) : Prop := w.step a = some w'

/-- No wakeup of a thread that is about to park again. -/
def timely (w : Alert n) : IdMove n → Bool
  | .sched a => w.ids.st.timely a
  | _ => true

end Alert

end Qunix.Hal
