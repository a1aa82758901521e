/-
The flags of the processor on the ways into and out of the kernel
(`crates/qunix-hal-x86_64/src/{syscall,context}.rs`).

`SYSCALL` clears the bits in `IA32_FMASK` and nothing else; the delivery of an
interrupt or an exception clears NT; `iretq` faults in ring 0 while NT is set,
and the handler of that fault panics. `context::switch` neither saves nor loads
flags, so a CPU takes them along from one thread to the next.

A `FlagMachine` is the machine of `Qunix.Hal.Entry` with `RFLAGS` of every CPU
and the copies of it that lie on the stacks: the `r11` that the syscall stub
pushes, and the frames of interrupts. IF is the scheduler machine's `irqOn` and
is not read from the flags here. Every `iretq` is written down with the flags it
was executed under.
-/

import Qunix.Hal.Moves

namespace Qunix.Hal

open Function Qunix.Sched

variable {n : Nat}

/-- The nested-task flag. -/
def nt (rflags : BitVec 64) : Bool := rflags.getLsbD 14

/-- `IA32_FMASK`. -/
def fmask : BitVec 64 := 0x700#64 ||| 1#64 <<< 9 ||| 1#64 <<< 10

/-- The flags after the delivery of an interrupt or an exception, which clears
TF, IF, NT, RF and VM. -/
def delivered (rflags : BitVec 64) : BitVec 64 := rflags &&& ~~~0x34300#64

/-- The flags `sysretq` loads from `r11`. -/
def fromR11 (r11 : BitVec 64) : BitVec 64 := r11 &&& 0x3c7fd7#64 ||| 2#64

/-- The flags `enter_user` puts into its frame. -/
def userRflags : BitVec 64 := 0x202#64

structure FlagMachine (n : Nat) where
  hal : Machine n
  rflags : Fin n → BitVec 64
  /-- The flags in the frame of the handler in progress on a CPU. -/
  saved : Fin n → BitVec 64
  /-- The flags in the interrupt frames that preempted threads have on their
  stacks, innermost first. -/
  frames : ThreadId → List (BitVec 64)
  /-- The `r11` of a thread's last `SYSCALL`. -/
  r11 : ThreadId → BitVec 64
  /-- The flags of every `iretq` so far, latest first. -/
  iretqs : List (BitVec 64)

inductive FlagMove (n : Nat) where
  | hal (a : Move n)
  /-- Ring 3 loads its flags. -/
  | popfq (c : Fin n) (value : BitVec 64)
  /-- `breakpoint_handler`, which returns to where it came from. -/
  | breakpoint (c : Fin n)

namespace FlagMachine

def boot (n : Nat) : FlagMachine n where
  hal := Machine.boot n
  rflags := fun _ => 2#64
  saved := fun _ => 0#64
  frames := fun _ => []
  r11 := fun _ => 0#64
  iretqs := []

def setFlags (f : FlagMachine n) (c : Fin n) (value : BitVec 64) : FlagMachine n :=
  { f with rflags := update f.rflags c value }

/-- An `iretq` that loads `value` and leads to `hal`, unless it faults. -/
def iretq (f : FlagMachine n) (c : Fin n) (value : BitVec 64) (hal : Machine n) : FlagMachine n :=
  { f.setFlags c value with
    hal := if nt (f.rflags c) then { f.hal with stopped := true } else hal
    iretqs := f.rflags c :: f.iretqs }

/-- What a move that leads to `hal` does to the flags. -/
def follow (f : FlagMachine n) (hal : Machine n) : Move n → FlagMachine n
  | .sched (.run c .frame) =>
    match f.hal.st.running c with
    | some me =>
      match f.hal.st.tail me, f.frames me with
      -- The end of a timer handler that had called `schedule`.
      | .iret :: _, value :: frames =>
        { f.iretq c value hal with frames := update f.frames me frames }
      | _, _ => { f with hal := hal }
    | none => { f with hal := hal }
  | .sched (.run c .enterUser) => f.iretq c userRflags hal
  | .syscall c =>
    match f.hal.st.running c with
    | some me => { f.setFlags c (f.rflags c &&& ~~~fmask) with
        hal := hal
        r11 := update f.r11 me (f.rflags c) }
    | none => { f with hal := hal }
  | .sysret c =>
    match f.hal.st.running c with
    | some me => { f.setFlags c (fromR11 (f.r11 me)) with hal := hal }
    | none => { f with hal := hal }
  | .fault c => { f.setFlags c (delivered (f.rflags c)) with hal := hal }
  | .interrupt c _ => { f.setFlags c (delivered (f.rflags c)) with
      hal := hal
      saved := update f.saved c (f.rflags c) }
  | .handlerEnd c => f.iretq c (f.saved c) hal
  | .tick c =>
    match f.hal.st.running c with
    | some me => { f with
        hal := hal
        frames := update f.frames me (f.saved c :: f.frames me) }
    | none => { f with hal := hal }
  | .wakeIpi c => (f.setFlags c (delivered (f.rflags c))).iretq c (f.rflags c) hal
  -- Everything else leaves the flags alone, a context switch included.
  | .sched _ | .clearGs _ | .setRsp _ _ => { f with hal := hal }

def step (f : FlagMachine n) : FlagMove n → Option (FlagMachine n)
  | .hal a =>
    (f.hal.step a).map fun hal => if hal.stopped then { f with hal := hal } else f.follow hal a
  | .popfq c value =>
    if f.hal.stopped = false ∧ f.hal.inUser c then some (f.setFlags c value) else none
  | .breakpoint c =>
    if f.hal.stopped = false ∧ (f.hal.st.running c).isSome then
      some ((f.setFlags c (delivered (f.rflags c))).iretq c (f.rflags c) f.hal)
    else none

def Step (f : FlagMachine n) (a : FlagMove n) (f' : FlagMachine n) : Prop := f.step a = some f'

theorem follow_sched_of_ne {f : FlagMachine n} {hal : Machine n} {a : Act n}
    (hf : ∀ c, a ≠ .run c .frame) (hu : ∀ c, a ≠ .run c .enterUser) :
    f.follow hal (.sched a) = { f with hal := hal } := by
  unfold follow
  split
  case h_1 heq => exact absurd (Move.sched.inj heq) (hf _)
  case h_2 heq => exact absurd (Move.sched.inj heq) (hu _)
  case h_10 | h_11 | h_12 => rfl
  all_goals rename_i heq; cases heq

/-- Going on with a stack is an `iretq` where an interrupt frame comes next. -/
theorem follow_frame {f : FlagMachine n} (hal : Machine n) {c : Fin n} {me : ThreadId}
    (hrun : f.hal.st.running c = some me) :
    (∃ l value frames, f.hal.st.tail me = .iret :: l ∧ f.frames me = value :: frames ∧
      f.follow hal (.sched (.run c .frame)) =
        { f.iretq c value hal with frames := update f.frames me frames }) ∨
    ((∀ l, f.hal.st.tail me = .iret :: l → f.frames me = []) ∧
      f.follow hal (.sched (.run c .frame)) = { f with hal := hal }) := by
  simp only [follow, hrun]
  split
  case h_1 l value frames ht hf => exact .inl ⟨l, value, frames, ht, hf, rfl⟩
  case h_2 hno =>
    refine .inr ⟨fun l hl => ?_, rfl⟩
    cases hf : f.frames me with
    | nil => rfl
    | cons value frames => exact (hno l value frames hl hf).elim

/-- The scheduler's state changes by the machine's own moves only. -/
theorem follow_st (f : FlagMachine n) (hal : Machine n) (a : Move n) :
    (f.follow hal a).hal.st = hal.st ∨ (f.follow hal a).hal.st = f.hal.st := by
  have hi : ∀ (g : FlagMachine n) c v, (g.iretq c v hal).hal.st = hal.st ∨
      (g.iretq c v hal).hal.st = g.hal.st := by
    intro g c v
    simp only [iretq]
    split
    · exact .inr rfl
    · exact .inl rfl
  unfold follow
  split
  case h_1 =>
    split
    · split
      case h_1 value _ _ _ => exact hi f _ value
      case h_2 => exact .inl rfl
    · exact .inl rfl
  case h_2 => exact hi f _ _
  case h_3 | h_4 | h_8 =>
    split
    · exact .inl rfl
    · exact .inl rfl
  case h_7 => exact hi f _ _
  case h_9 => exact hi (f.setFlags _ _) _ _
  all_goals exact .inl rfl

theorem invariant_step {f f' : FlagMachine n} {a : FlagMove n} {p : St n → Prop}
    (hp : p f.hal.st) (hs : ∀ s a t, p s → s.step a = some t → p t) (hf : f.step a = some f') :
    p f'.hal.st := by
  cases a with
  | hal a =>
    obtain ⟨hal, hm, rfl⟩ := Option.map_eq_some_iff.mp hf
    have hhal := Machine.invariant_step hp hs hm
    split
    · exact hhal
    · rcases f.follow_st hal a with heq | heq
      · exact heq ▸ hhal
      · exact heq ▸ hp
  | popfq c value =>
    simp only [step] at hf
    split_ifs at hf
    cases hf
    exact hp
  | breakpoint c =>
    simp only [step] at hf
    split_ifs at hf
    cases hf
    simp only [iretq]
    split
    · exact hp
    · exact hp

/-- A context switch is executed with NT clear. -/
def switchesClear (f : FlagMachine n) : FlagMove n → Bool
  | .hal (.sched (.switch c)) => !nt (f.rflags c)
  | _ => true

end FlagMachine

/-! ### Bits -/

@[simp] theorem nt_delivered (v : BitVec 64) : nt (delivered v) = false := by
  simp [nt, delivered]

@[simp] theorem nt_and_fmask (v : BitVec 64) : nt (v &&& ~~~fmask) = nt v := by
  simp [nt, fmask]

@[simp] theorem nt_userRflags : nt userRflags = false := rfl

end Qunix.Hal
