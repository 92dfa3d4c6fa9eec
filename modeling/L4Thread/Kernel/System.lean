import L4Thread.Kernel.Exregs
import L4Thread.Kernel.Fault
import L4Thread.Kernel.ThreadControl
import L4Thread.Lib.Run

/-!
# The system

The transition system of the whole kernel on one processor. The kernel runs with interrupts
disabled, so a step is a whole kernel entry up to the next switch of threads: the current thread
enters the kernel from user level by a system call or a page fault, is interrupted there, or goes
on with its suspended kernel activation. The idle thread looks for a runnable thread.
-/

namespace L4Thread

inductive Event
  | threadControl (a : ThreadControlArgs)
  | spaceControl (a : SpaceControlArgs)
  | exchangeRegisters (a : ExregsArgs)
  | schedule (destTid : ThreadId) (timeControl prio preemptionControl : Word)
  | threadSwitch (dest : ThreadId)
  | ipc (toTid fromTid : ThreadId) (timeout : Timeout)
  /-- A page fault at user level. -/
  | pagefault (addr ip : Word) (access : Access)
  /-- A page fault inside the `memcpy` of a string item. -/
  | copyFault (addr ip : Word) (access : Access)
  /-- The current thread writes a UTCB of its space. -/
  | writeUtcb (addr : Nat) (u : Utcb)
  | timer
  | interrupt (irq : Nat)
  /-- The current thread continues in the kernel. -/
  | resume
  /-- An iteration of `idle_thread`. -/
  | idle

namespace Kernel

open TrapM

/-- Run a notify procedure. -/
def runNotify (current : TcbPtr) : Notify → Kernel Unit
  | .ipcError => handleIpcError current
  | .ipcTimeout state => handleIpcTimeout current state
  | .threadStartup => threadStartup current
  | .threadReturn => pure ()
  | .irqThread => irqThread current

/-- Run a suspended part of the kernel activation of `current`. -/
def runFrame (current : TcbPtr) : Frame → Kernel Unit
  | .sendBlocked toTid fromTid timeout senderId =>
    resumeSend current toTid fromTid timeout senderId
  | .transfer x toTid fromTid timeout => resumeTransfer current x toTid fromTid timeout
  | .received => resumeReceived current
  | .recvBlocked => resumeRecvBlocked current
  | .pagefault => resumePagefault current
  | .preemption => resumePreemption current
  | .notify n => runNotify current n
  | .irqSent => irqActivated current
  | .irqIdle => irqThread current

/-- Continue with the innermost frame of the current thread. -/
def resume : Kernel Unit := do
  let current ← getCurrentTcb
  match (← readTcb current).stack with
  | [] => pure ()
  | f :: rest =>
    modTcb current fun c => { c with stack := rest }
    runFrame current f

/-- A user-level write to a UTCB. -/
def writeUtcb (ptr : UtcbPtr) (u : Utcb) : Kernel Unit :=
  modify fun s => { s with utcb := Function.update s.utcb ptr u }

def runEvent : Event → Kernel Unit
  | .threadControl a => do
    let _ ← sysThreadControl a
  | .spaceControl a => do
    let _ ← sysSpaceControl a
  | .exchangeRegisters a => do
    let _ ← sysExchangeRegisters a
  | .schedule destTid timeControl prio preemptionControl => do
    let _ ← sysSchedule destTid timeControl prio preemptionControl
  | .threadSwitch dest => sysThreadSwitch dest
  | .ipc toTid fromTid timeout => sysIpc toTid fromTid timeout
  | .pagefault addr ip access => handlePagefault addr ip access false
  | .copyFault addr ip access => handlePagefault addr ip access true
  | .writeUtcb addr u => writeUtcb (.user addr) u
  | .timer => handleTimerInterrupt
  | .interrupt irq => handleInterrupt irq
  | .resume => resume
  | .idle => do
    let _ ← schedule .idle

end Kernel

namespace KState

def current (s : KState) : Tcb := s.tcb s.currentTcb

/-- The current thread is at user level. -/
def AtUser (s : KState) : Prop := s.currentTcb ≠ .idle ∧ s.current.stack = []

instance (s : KState) : Decidable s.AtUser := inferInstanceAs (Decidable (_ ∧ _))

/-- The current thread is inside the `memcpy` of a string item. -/
def inCopy (s : KState) : Bool :=
  match s.current.stack with
  | .transfer x _ _ _ :: _ =>
    match x.point with
    | .copying _ _ _ => true
    | _ => false
  | _ => false

/-- A UTCB page of the current space holds the address. -/
def mapsUtcb (s : KState) (addr : Nat) : Bool :=
  match s.current.space with
  | some sp => (s.space sp).utcbPages.any fun m => m.2 ≤ addr && addr < m.2 + pageSize
  | none => false

/-- The events that can happen in a state. -/
def Enabled (s : KState) : Event → Prop
  | .timer => s.currentTcb = .idle ∨ s.AtUser
  | .interrupt irq => (s.currentTcb = .idle ∨ s.AtUser) ∧ isIrqAvailable irq ∧ s.intMask irq
  | .resume => s.currentTcb ≠ .idle ∧ s.current.stack ≠ []
  | .copyFault _ _ _ => s.currentTcb ≠ .idle ∧ s.inCopy
  | .idle => s.currentTcb = .idle
  | .writeUtcb addr _ => s.AtUser ∧ s.mapsUtcb addr
  | _ => s.AtUser

instance (s : KState) (e : Event) : Decidable (s.Enabled e) := by
  cases e <;> unfold Enabled <;> infer_instance

/-- A condition on the calls of `SYS_THREAD_CONTROL` alone. -/
def decidableThreadControl (P : ThreadControlArgs → Prop) [DecidablePred P] (e : Event) :
    Decidable (match e with
      | .threadControl a => P a
      | _ => True) :=
  match e with
  | .threadControl a => inferInstanceAs (Decidable (P a))
  | .spaceControl _ | .exchangeRegisters _ | .schedule _ _ _ _ | .threadSwitch _ | .ipc _ _ _
  | .pagefault _ _ _ | .copyFault _ _ _ | .writeUtcb _ _ | .timer | .interrupt _ | .resume
  | .idle => isTrue trivial

/-- One step of the system; there is none if the kernel entry traps. -/
def next (s : KState) (e : Event) : Option KState :=
  if s.Enabled e then
    match Kernel.runEvent e s with
    | .ok (_, t) => some t
    | .error _ => none
  else none

/-- `s` goes to `t` by `e`. -/
def Step (s : KState) (e : Event) (t : KState) : Prop := s.next e = some t

theorem step_iff {s t : KState} {e : Event} :
    s.Step e t ↔ s.Enabled e ∧ Kernel.runEvent e s = .ok ((), t) := by
  unfold Step next
  split
  · rename_i h
    cases hr : Kernel.runEvent e s with
    | error => simp [h]
    | ok r =>
      obtain ⟨u, t'⟩ := r
      cases u
      simp [h]
  · rename_i h
    simp [h]

end KState

end L4Thread
