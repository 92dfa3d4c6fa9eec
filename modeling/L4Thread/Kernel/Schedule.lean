import L4Thread.Kernel.Memory

/-!
# The scheduler

The ready queues, the wakeup queue and the dispatch decisions of `scheduler_t`
(`include/api/v4/schedule.h`, `src/api/backup/schedule.cc`), and the system calls `SYS_SCHEDULE`
and `SYS_THREAD_SWITCH`. The timer interrupt is in `L4Thread.Kernel.Timer`.

The loops of the source that follow queue links take a bound on their iterations: a queue has at
most `numTcbs` members, and a loop that exceeds the bound does not end in the source.
-/

namespace L4Thread

/-- Number of TCBs, the idle TCB included. -/
def numTcbs : Nat := 2 ^ validThreadnoBits + 1

/-- `TOTAL_QUANTUM_EXPIRED`. -/
def totalQuantumExpired : Word := BitVec.allOnes 64

namespace Kernel

open TrapM

/-! ## Queue state bits -/

def setReady (p : TcbPtr) (ready : Bool) : Kernel Unit :=
  modTcb p fun c => { c with queueState := { c.queueState with ready } }

def setWakeup (p : TcbPtr) (wakeup : Bool) : Kernel Unit :=
  modTcb p fun c => { c with queueState := { c.queueState with wakeup } }

def setSend (p : TcbPtr) (send : Bool) : Kernel Unit :=
  modTcb p fun c => { c with queueState := { c.queueState with send } }

/-! ## Ready queues -/

/-- Replace the head of a ready queue and the ready links. -/
def setReadyQueue (prio : Int) (head : Option TcbPtr) (links : TcbPtr → Ring.Link TcbPtr) :
    Kernel Unit :=
  modify fun s =>
    { s with prioQueue := Function.update s.prioQueue prio head, readyList := links }

/-- `prio_queue_t::init`. -/
def initPrioQueue : Kernel Unit :=
  modify fun s =>
    { s with
      prioQueue := fun n => if 0 ≤ n ∧ n < maxPrio then none else s.prioQueue n
      maxPrio := -1 }

/-- `prio_queue_t::set`. -/
def setPrioQueue (prio : Int) (p : Option TcbPtr) : Kernel Unit :=
  modify fun s => { s with prioQueue := Function.update s.prioQueue prio p }

/-- `prio_queue_t::enqueue`. -/
def enqueueReady (p : TcbPtr) (head : Bool) : Kernel Unit := do
  let c ← readTcb p
  if c.queueState.ready then pure ()
  else
    let s ← gets id
    let q := s.prioQueue c.priority
    let (h, links) ← ofLinks <|
      if head then Ring.enqueueHead q s.readyList p else Ring.enqueueTail q s.readyList p
    setReadyQueue c.priority h links
    setReady p true
    setMaxPrio (max c.priority s.maxPrio)

/-- `prio_queue_t::dequeue`. -/
def dequeueReady (p : TcbPtr) : Kernel Unit := do
  let c ← readTcb p
  if c.queueState.ready then
    let s ← gets id
    let (h, links) ← ofLinks (Ring.dequeue (s.prioQueue c.priority) s.readyList p)
    setReadyQueue c.priority h links
    setReady p false
  else pure ()

/-! ## Scheduling parameters -/

def setSensitivePrio (p : TcbPtr) (prio : Int) : Kernel Unit :=
  modTcb p fun c => { c with sensitivePrio := prio }

def setPriority (p : TcbPtr) (prio : Int) : Kernel Unit :=
  modTcb p fun c =>
    { c with
      priority := prio
      sensitivePrio := if c.sensitivePrio < prio then prio else c.sensitivePrio }

def setTotalQuantum (p : TcbPtr) (quantum : Time) : Kernel Unit :=
  modTcb p fun c =>
    { c with
      totalQuantum := if quantum.isNever then 0 else quantum.getMicroseconds
      currentTimeslice := c.timesliceLength }

def setTimesliceLength (p : TcbPtr) (timeslice : Time) : Kernel Unit :=
  modTcb p fun c =>
    { c with
      timesliceLength := timeslice.getMicroseconds
      currentTimeslice := timeslice.getMicroseconds }

def setMaximumDelay (p : TcbPtr) (usec : BitVec 16) : Kernel Unit :=
  modTcb p fun c => { c with currentMaxDelay := usec, maxDelay := usec }

/-- `scheduler_t::init_tcb` with its default arguments. -/
def initTcb (p : TcbPtr) : Kernel Unit := do
  setTimesliceLength p defaultTimesliceLength
  setTotalQuantum p defaultTotalQuantum
  setPriority p defaultPriority
  setSensitivePrio p defaultPriority
  setMaximumDelay p 0

/-! ## Timeouts -/

def setWakeupList (head : Option TcbPtr) (links : TcbPtr → Ring.Link TcbPtr) : Kernel Unit :=
  modify fun s => { s with wakeupList := head, waitList := links }

/-- `set_timeout` to an absolute time. -/
def setTimeoutAt (p : TcbPtr) (absoluteTime : Word) : Kernel Unit := do
  modTcb p fun c => { c with absoluteTimeout := absoluteTime }
  let s ← gets id
  let (h, links) ← ofLinks (Ring.enqueueTail s.wakeupList s.waitList p)
  setWakeupList h links
  setWakeup p true

/-- `set_timeout` to a relative time; time points are not implemented. -/
def setTimeout (p : TcbPtr) (time : Time) : Kernel Unit := do
  if time.isPoint then trap .hang
  else setTimeoutAt p ((← gets (·.currentTime)) + time.getMicroseconds)

def cancelTimeout (p : TcbPtr) : Kernel Unit := do
  let c ← readTcb p
  if c.queueState.wakeup then
    let s ← gets id
    let (h, links) ← ofLinks (Ring.dequeue s.wakeupList s.waitList p)
    setWakeupList h links
    setWakeup p false
  else pure ()

/-! ## Dispatch decisions -/

def delayPreemption (current p : TcbPtr) : Kernel Bool := do
  if current = p then pure true
  else
    let c ← readTcb current
    let d ← readTcb p
    pure (!decide (c.sensitivePrio < d.priority) && decide (c.currentMaxDelay ≠ 0))

/-- May `p` be dispatched in place of `current`? -/
def checkDispatchThread (current p : TcbPtr) : Kernel Bool := do
  let u ← readUtcb current
  let c ← readTcb current
  if u.preemptFlags.isDelayed ∧ c.currentMaxDelay ≠ 0 then
    return !(← delayPreemption current p)
  else
    return decide (c.priority < (← readTcb p).priority)

/-- `preempt_thread`: account the remaining timeslice. -/
def preemptThread (current dest : TcbPtr) : Kernel Unit := do
  let ts ← gets (·.queueTimeslice)
  modTcb current fun c => { c with currentTimeslice := ts }
  enqueueReady current true
  let d ← readTcb dest
  setQueueTimeslice d.currentTimeslice

/-- The inner loop of `find_next_thread`: drop the threads in front that are not runnable. -/
def findRunnable (prio : Int) : Nat → Kernel (Option TcbPtr)
  | 0 => trap .hang
  | fuel + 1 => do
    match (← gets (·.prioQueue prio)) with
    | none => pure none
    | some p =>
      if (← getState p).isRunnable then
        setPrioQueue prio (some p)
        setMaxPrio prio
        pure (some p)
      else
        dequeueReady p
        findRunnable prio fuel

/-- The outer loop of `find_next_thread` over the priorities below `n`. -/
def findBelow : Nat → Kernel TcbPtr
  | 0 => do
    setMaxPrio (-1)
    pure .idle
  | n + 1 => do
    match ← findRunnable n numTcbs with
    | some p => pure p
    | none => findBelow n

def findNextThread : Kernel TcbPtr := do findBelow ((← gets (·.maxPrio)) + 1).toNat

/-- `scheduler_t::schedule`: was another thread found? -/
def schedule (current : TcbPtr) : Kernel Bool := do
  let p ← findNextThread
  if p = current then pure false
  else
    if current ≠ .idle then enqueueReady current false
    switchTo p
    pure true

def endOfTimeslice (p : TcbPtr) : Kernel Unit := do
  enqueueReady p true
  let c ← readTcb p
  let next ← gets fun s => (s.readyList p).next
  setPrioQueue c.priority next
  let ts ← gets (·.queueTimeslice)
  modTcb p fun c => { c with currentTimeslice := ts + c.timesliceLength }
  let d ← readTcb (← ofLinks (← gets (·.prioQueue c.priority)))
  setQueueTimeslice d.currentTimeslice

/-! ## Wakeup -/

/-- What `parse_wakeup_queues` does with an expired thread; the thread to be dispatched. -/
def wakeupExpired (highest p : TcbPtr) : Kernel TcbPtr := do
  let c ← readTcb p
  if c.state.isWaitingForever ∧ ¬c.hasXferTimeout then
    cancelTimeout p
    pure highest
  else
    let higher ← checkDispatchThread highest p
    cancelTimeout p
    modTcb p fun c => { c with hasXferTimeout := false }
    if c.state.isSending ∨ c.state.isReceiving then notify p (.ipcTimeout c.state)
    setState p .running
    enqueueReady p false
    pure (if higher then p else highest)

/-- The loop of `parse_wakeup_queues`, at thread `p`. -/
def parseLoop : Nat → TcbPtr → TcbPtr → Kernel TcbPtr
  | 0, _, _ => trap .hang
  | fuel + 1, highest, p => do
    let expired ← gets fun s => decide ((s.tcb p).absoluteTimeout ≤ s.currentTime)
    let next ← gets fun s => (s.waitList p).next
    let highest ← if expired then wakeupExpired highest p else pure highest
    match (← gets (·.wakeupList)) with
    | none => pure highest
    | some h =>
      if next ≠ some h ∨ expired then parseLoop fuel highest (← ofLinks next) else pure highest

def parseWakeupQueues (current : TcbPtr) : Kernel TcbPtr := do
  match (← gets (·.wakeupList)) with
  | none => pure current
  | some p => parseLoop (2 * numTcbs) current p

/-! ## System calls -/

/-- `SYS_THREAD_SWITCH`. -/
def sysThreadSwitch (dest : ThreadId) : Kernel Unit := do
  let current ← getCurrentTcb
  let destTcb := getTcb dest
  let d ← readTcb destTcb
  if !dest.isNilthread ∧ destTcb = current then pure ()
  else if !dest.isNilthread ∧ d.state.isRunnable ∧ d.myselfGlobal = dest then
    enqueueReady current false
    switchTo destTcb
  else
    enqueueReady current false
    let c ← readTcb current
    if c.currentMaxDelay < c.maxDelay then
      modUtcb current fun u => { u with preemptFlags := u.preemptFlags.clearPending }
      modTcb current fun c => { c with currentMaxDelay := c.maxDelay }
    setQueueTimeslice 0
    endOfTimeslice current
    let _ ← schedule current

/-- The priority part of `do_schedule`. -/
def schedulePrio (p : TcbPtr) (prio : Word) : Kernel Unit := do
  if prio ≠ BitVec.allOnes 64 ∧ (prio.setWidth 32).toInt ≠ (← readTcb p).priority then
    dequeueReady p
    setPriority p (prio &&& 0xff).toNat
    enqueueReady p false

/-- The time control part of `do_schedule`. -/
def scheduleTime (p : TcbPtr) (quantum timeslice : Time) : Kernel Unit := do
  if quantum.isPeriod then
    setTotalQuantum p quantum
    enqueueReady p false
  if timeslice.isPeriod then setTimesliceLength p timeslice

/-- The preemption control part of `do_schedule`. -/
def schedulePreemption (p : TcbPtr) (maxDelay : BitVec 16) (sensPrio : Int) : Kernel Unit := do
  setMaximumDelay p maxDelay
  if (← readTcb p).priority ≤ sensPrio then setSensitivePrio p sensPrio

/-- `do_schedule`. -/
def doSchedule (p : TcbPtr) (timeControl prio preemptionControl : Word) : Kernel Unit := do
  schedulePrio p prio
  if timeControl ≠ BitVec.allOnes 64 then
    scheduleTime p ⟨timeControl.setWidth 16⟩ ⟨(timeControl >>> 16).setWidth 16⟩
  if preemptionControl ≠ BitVec.allOnes 64 then
    schedulePreemption p ((preemptionControl &&& 0xffff).setWidth 16)
      ((preemptionControl >>> 16) &&& 0xff).toNat

/-- The result of `SYS_SCHEDULE` for a thread state. -/
def scheduleResult (state : ThreadState) : Word :=
  if state = .aborted then 1
  else if state.isHalted then 2
  else if state.isRunning then 3
  else if state.isPolling then 4
  else if state.isSending then 5
  else if state.isWaiting then 6
  else if state.isReceiving then 7
  else 0

/-- `SYS_SCHEDULE`; migration to another processor has no effect on one processor. -/
def sysSchedule (destTid : ThreadId) (timeControl prio preemptionControl : Word) :
    Kernel Word := do
  let current ← getCurrentTcb
  let dest := getTcb destTid
  let d ← readTcb dest
  if d.myselfGlobal ≠ destTid then
    setErrorCode current einvalidThread
    pure 0
  else
    let sched ← readTcb (getTcb d.scheduler)
    if sched.myselfGlobal ≠ d.scheduler ∨ sched.space ≠ (← getCurrentSpace) then
      setErrorCode current enoPrivilege
      pure 0
    else
      doSchedule dest timeControl prio preemptionControl
      return scheduleResult (← getState dest)

end Kernel

end L4Thread
