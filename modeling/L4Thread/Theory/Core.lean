import L4Thread.Theory.Ident

/-!
# What the queues leave alone

`KState.core` is the state without the ready queues, the wakeup queue and the scheduling parameters
of the threads. Enqueueing, timeouts and the dispatch decisions are about the rest only, so that the
IPC path can be reasoned about without them.
-/

namespace L4Thread

open TrapM Kernel

/-- A TCB without its scheduling parameters. -/
@[grind] def Tcb.core (c : Tcb) : Tcb :=
  { c with
    queueState := { c.queueState with ready := false, wakeup := false }
    totalQuantum := 0, timesliceLength := 0, currentTimeslice := 0, absoluteTimeout := 0
    priority := 0, sensitivePrio := 0, currentMaxDelay := 0, maxDelay := 0 }

/-- The state without queues and scheduling parameters. -/
structure Core where
  tcb : TcbPtr → Tcb
  utcb : UtcbPtr → Utcb
  sendList : TcbPtr → Ring.Link TcbPtr
  currentTcb : TcbPtr
  space : SpacePtr → Space
  kmem : Kmem

def KState.core (s : KState) : Core :=
  ⟨fun p => (s.tcb p).core, s.utcb, s.sendList, s.currentTcb, s.space, s.kmem⟩

/-- The computation is about queues and scheduling parameters only. -/
abbrev KeepsCore {α : Type} (x : Kernel α) : Prop := Keeps KState.core x

variable {p q : TcbPtr} {b : Bool}

@[grind ←] theorem keepsCore_modTcb {f : Tcb → Tcb} (h : ∀ c, (f c).core = c.core) :
    KeepsCore (modTcb p f) := by
  refine .modify fun s => ?_
  simp only [KState.core, Core.mk.injEq, and_true]
  funext q
  rcases eq_or_ne q p with rfl | hq
  · simp [h]
  · simp [hq]

@[grind ←] theorem keepsCore_setMaxPrio {n : Int} : KeepsCore (setMaxPrio n) :=
  .modify fun _ => rfl

@[grind ←] theorem keepsCore_setQueueTimeslice {w : Word} : KeepsCore (setQueueTimeslice w) :=
  .modify fun _ => rfl

@[grind ←] theorem keepsCore_setReadyQueue {prio : Int} {h : Option TcbPtr}
    {l : TcbPtr → Ring.Link TcbPtr} : KeepsCore (setReadyQueue prio h l) :=
  .modify fun _ => rfl

@[grind ←] theorem keepsCore_setPrioQueue {prio : Int} {h : Option TcbPtr} :
    KeepsCore (setPrioQueue prio h) :=
  .modify fun _ => rfl

@[grind ←] theorem keepsCore_setWakeupList {h : Option TcbPtr} {l : TcbPtr → Ring.Link TcbPtr} :
    KeepsCore (setWakeupList h l) :=
  .modify fun _ => rfl

@[grind ←] theorem keepsCore_enqueueReady : KeepsCore (enqueueReady p b) := by
  unfold enqueueReady
  grind

@[grind ←] theorem keepsCore_dequeueReady : KeepsCore (dequeueReady p) := by
  unfold dequeueReady
  grind

@[grind ←] theorem keepsCore_setTimeout {t : Time} : KeepsCore (setTimeout p t) := by
  unfold setTimeout setTimeoutAt
  grind

@[grind ←] theorem keepsCore_cancelTimeout : KeepsCore (cancelTimeout p) := by
  unfold cancelTimeout
  grind

@[grind ←] theorem keepsCore_delayPreemption : KeepsCore (delayPreemption p q) := by
  unfold delayPreemption
  grind

@[grind ←] theorem keepsCore_checkDispatchThread : KeepsCore (checkDispatchThread p q) := by
  unfold checkDispatchThread
  grind

end L4Thread
