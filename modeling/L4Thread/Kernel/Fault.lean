import L4Thread.Kernel.Ipc

/-!
# Page faults and the timer

IPCs the kernel sends on behalf of the current thread: page-fault IPCs, also from inside a string
copy (`src/api/backup/space.cc`, `src/api/v4/thread.cc`), and the preemption IPC of the timer
interrupt (`src/api/backup/schedule.cc`).
-/

namespace L4Thread

/-- `space_t::access_e`. -/
inductive Access
  | read
  | write
  | readwrite
  | execute
  deriving DecidableEq

/-- The label of a page-fault message. -/
def Access.label (access : Access) : Word :=
  (-2 : Word) <<< 4 |||
    match access with
    | .read => 4
    | .write => 2
    | .readwrite => 6
    | .execute => 1

namespace Kernel

open TrapM

/-! ## Page faults -/

/-- The page-fault message and the acceptor for the reply. -/
def setPagefaultMessage (current : TcbPtr) (addr ip : Word) (access : Access) : Kernel Unit := do
  setTag current (.tag 0 2 access.label)
  setMr current 1 addr
  setMr current 2 ip
  setBr current 0 (Acceptor.ofRcvWindow .complete).raw

/-- `send_pagefault_ipc` up to the end of `do_ipc`. -/
def sendPagefaultIpc (current : TcbPtr) (addr ip : Word) (access : Access) : Kernel Unit := do
  saveState current
  setPagefaultMessage current addr ip access
  let pager := (← readUtcb current).pager
  pushFrame current .pagefault
  sysIpc pager pager .never

/-- `send_pagefault_ipc` behind `do_ipc`. -/
def resumePagefault (current : TcbPtr) : Kernel Unit := do
  if (← getTag current).isError then trap .hang
  else restoreState current

/-- `handle_xfer_timeouts`: `false` if the transfer was aborted at once. -/
def handleXferTimeouts (sender : TcbPtr) : Kernel Bool := do
  if (← readTcb sender).hasXferTimeout then pure true
  else
    let partner ← getPartnerTcb sender
    let sndTo := (← readUtcb sender).xferTimeout.getSnd
    let rcvTo := (← readUtcb partner).xferTimeout.getRcv
    if sndTo.isZero ∨ rcvTo.isZero then
      handleIpcTimeout sender .lockedRunning
      pure false
    else
      if !(sndTo.isNever ∧ rcvTo.isNever) then
        setTimeout sender (if ← timeLt sndTo rcvTo then sndTo else rcvTo)
        modTcb sender fun c => { c with hasXferTimeout := true }
      pure true

/-- `space_t::handle_pagefault` for a fault in the user area; `kernel` for a fault inside a string
copy. The fault of `sigma0` is resolved by a mapping. -/
def handlePagefault (addr ip : Word) (access : Access) (kernel : Bool) : Kernel Unit := do
  let current ← getCurrentTcb
  if !Space.isUserArea addr then trap .hang
  else if ← isSigma0Space (← readTcb current).space then pure ()
  else
    let state ← getState current
    if kernel ∧ state ≠ .lockedRunning then trap .hang
    else
      let go ←
        if state = .lockedRunning then do
          modTcb current fun c => { c with ipcCopy := { c.ipcCopy with copyFault := addr } }
          handleXferTimeouts current
        else pure true
      if go then
        if !kernel then setPartner current .nilthread
        sendPagefaultIpc current addr ip access

/-! ## The timer -/

/-- `send_preemption_ipc` up to the end of `do_ipc`. -/
def sendPreemptionIpc (current : TcbPtr) (time : Word) : Kernel Unit := do
  saveState current
  setTag current .preemptionTag
  setMr current 1 time
  setMr current 2 0
  setBr current 0 0
  let scheduler := (← readTcb current).scheduler
  pushFrame current .preemption
  sysIpc scheduler .nilthread .never

/-- The end of `handle_timer_interrupt`. -/
def reschedule (current : TcbPtr) : Kernel Unit := do
  enqueueReady current false
  let _ ← schedule current

/-- `send_preemption_ipc` behind `do_ipc`, and the end of `handle_timer_interrupt`. -/
def resumePreemption (current : TcbPtr) : Kernel Unit := do
  let tag ← getTag current
  restoreState current
  if tag.isError then trap .hang else reschedule current

/-- Charge a tick to the current thread: has its timeslice ended? -/
def tickTimeslice (current wakeup : TcbPtr) : Kernel Bool := do
  let c ← readTcb current
  if c.timesliceLength = 0 then pure false
  else
    let left := (← gets (·.queueTimeslice)) - timerTickLength
    setQueueTimeslice left
    if (0 : Word).slt left then pure false
    else
      let delayed := (← readUtcb current).preemptFlags.isDelayed
      if delayed && (← delayPreemption current wakeup) then
        setQueueTimeslice (left + c.currentMaxDelay.setWidth 64)
        modTcb current fun c => { c with currentMaxDelay := 0 }
        modUtcb current fun u => { u with preemptFlags := u.preemptFlags.setPending }
        pure false
      else
        endOfTimeslice current
        pure true

/-- The book-keeping of the total quantum at the end of a timeslice. -/
def chargeQuantum (current : TcbPtr) : Kernel Unit := do
  let c ← readTcb current
  if c.totalQuantum = 0 then reschedule current
  else if c.totalQuantum = totalQuantumExpired then
    sendPreemptionIpc current (← gets (·.currentTime))
  else if c.totalQuantum ≤ c.timesliceLength then
    modTcb current fun c =>
      { c with
        currentTimeslice := c.currentTimeslice + c.totalQuantum
        totalQuantum := totalQuantumExpired }
    reschedule current
  else
    modTcb current fun c => { c with totalQuantum := c.totalQuantum - c.timesliceLength }
    reschedule current

/-- Advance the global time by a tick. -/
def tickTime : Kernel Unit :=
  modify fun s => { s with currentTime := s.currentTime + timerTickLength }

/-- `handle_timer_interrupt`. -/
def handleTimerInterrupt : Kernel Unit := do
  tickTime
  let current ← getCurrentTcb
  let wakeup ← parseWakeupQueues current
  if current = .idle then pure ()
  else if ← tickTimeslice current wakeup then chargeQuantum current
  else if wakeup = current then pure ()
  else
    preemptThread current wakeup
    switchTo wakeup

end Kernel

end L4Thread
