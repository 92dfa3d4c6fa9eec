import L4Thread.Kernel.Schedule

/-!
# Threads

Creation, activation, deletion and migration of threads, the saved state of nested IPCs and the
unwinding of an ongoing IPC (`src/api/v4/thread.cc`, `include/api/v4/tcb.h`).
-/

namespace L4Thread

/-- `unwind_reason_e`. -/
inductive UnwindReason
  | abort
  | timeout
  deriving DecidableEq

/-- The status register of a user-level exception frame. -/
def userStatus : Word := 0x40000f3

def copyAreaStart : Word := 0xffffffffe0000000

def copyAreaEnd : Word := copyAreaStart + 0x20000000 - 1

def isCopyArea (addr : Word) : Bool := copyAreaStart ≤ addr && addr < copyAreaEnd

namespace Kernel

open TrapM

/-! ## Send queues -/

/-- Replace the send queue of `owner` and the send links. -/
def setSendQueue (owner : TcbPtr) (head : Option TcbPtr) (links : TcbPtr → Ring.Link TcbPtr) :
    Kernel Unit := do
  modTcb owner fun c => { c with sendHead := head }
  setSendLinks links

/-- `enqueue_send`: append `p` to the send queue of `owner`. -/
def enqueueSend (p owner : TcbPtr) : Kernel Unit := do
  let s ← gets id
  let (h, links) ← ofLinks (Ring.enqueueTail (s.tcb owner).sendHead s.sendList p)
  setSendQueue owner h links
  setSend p true

/-- `dequeue_send`: take `p` out of the send queue of `owner`. -/
def dequeueSend (p owner : TcbPtr) : Kernel Unit := do
  let s ← gets id
  let (h, links) ← ofLinks (Ring.dequeue (s.tcb owner).sendHead s.sendList p)
  setSendQueue owner h links
  setSend p false

/-! ## Saved state of nested IPCs -/

/-- Write the three saved message registers and the saved acceptor back. -/
def restoreRegisters (p : TcbPtr) : Kernel Unit := do
  let c ← readTcb p
  modUtcb p fun u =>
    { u with
      mr := fun i => if h : i < 3 then c.ipcCopy.savedMr ⟨i, h⟩ else u.mr i
      br := Function.update u.br 0 c.ipcCopy.savedBr0 }

def saveState (p : TcbPtr) : Kernel Unit := do
  let u ← readUtcb p
  modTcb p fun c =>
    { c with
      ipcCopy :=
        { c.ipcCopy with savedMr := fun i => u.mr i, savedBr0 := u.br 0, savedError := u.errorCode }
      savedPartner := c.partner
      savedState := c.state }

def restoreState (p : TcbPtr) : Kernel Unit := do
  restoreRegisters p
  modTcb p fun c => { c with partner := c.savedPartner, state := c.savedState }
  let c ← readTcb p
  setErrorCode p c.ipcCopy.savedError
  modTcb p fun c => { c with savedPartner := .nilthread, savedState := .aborted }

/-! ## Unwinding -/

/-- The absolute time of `time_t::operator<`. -/
def absoluteTime (t : Time) : Kernel Word := do
  if t.isPoint then trap .hang
  else if t.isNever then pure (BitVec.allOnes 64)
  else return (← gets (·.currentTime)) + t.getMicroseconds

/-- `time_t::operator<`. -/
def timeLt (l r : Time) : Kernel Bool := do
  let lTo ← absoluteTime l
  let rTo ← absoluteTime r
  pure (decide (lTo < rTo))

/-- `calculate_errorcodes`: the error codes of the sender and of the receiver. -/
def calculateErrorcodes (reason : UnwindReason) (snd rcv : TcbPtr) : Kernel (Word × Word) := do
  let i := (← readTcb snd).ipcCopy
  let start := if isCopyArea i.copyFault then i.copyStartDst else i.copyStartSrc
  let offset := i.copyLength + (i.copyFault - start)
  match reason with
  | .timeout =>
    let sndTo := (← readUtcb snd).xferTimeout.getSnd
    let rcvTo := (← readUtcb rcv).xferTimeout.getRcv
    if ← timeLt rcvTo sndTo then
      pure (ipcSndError (errIpcXferTimeoutPartner offset),
        ipcRcvError (errIpcXferTimeoutCurrent offset))
    else
      pure (ipcSndError (errIpcXferTimeoutCurrent offset),
        ipcRcvError (errIpcXferTimeoutPartner offset))
  | .abort =>
    pure (ipcSndError (errIpcAborted offset), ipcRcvError (errIpcAborted offset))

/-- Set tag and error code of a thread whose IPC is broken off. -/
def setIpcError (p : TcbPtr) (tag : MsgTag) (err : Word) : Kernel Unit := do
  setTag p tag
  setErrorCode p err

/-- Break off the IPC of the partner and make it ready. -/
def abortPartner (partner : TcbPtr) (tag : MsgTag) (err : Word) : Kernel Unit := do
  setErrorCode partner err
  setTag partner tag
  setState partner .running
  notify partner .ipcError
  enqueueReady partner false

/-- `tcb_t::unwind` from `redo_unwind` on. A redo follows a `restore_state`, which leaves no saved
partner and the saved state `aborted`: there are at most three rounds. -/
def unwindLoop (p : TcbPtr) (reason : UnwindReason) : Nat → MsgTag → Kernel Unit
  | 0, _ => trap .hang
  | fuel + 1, tag => do
    let cstate ← getState p
    setState p .running
    let partner ← getPartnerTcb p
    let nested := !(← readTcb p).savedPartner.isNilthread
    if cstate.isPolling ∨ cstate.isWaiting then
      cancelTimeout p
      if cstate.isPolling then dequeueSend p partner
      let tag := if cstate.isPolling then tag else .errorTag
      if nested then
        restoreState p
        unwindLoop p reason fuel tag
      else
        setTag p tag.setError
        let err := if reason = .timeout then errIpcTimeout else errIpcCanceled
        setErrorCode p (if cstate.isPolling then ipcSndError err else ipcRcvError err)
    else if cstate = .waitingTunneledPf then
      let (errS, errR) ← calculateErrorcodes reason p partner
      abortPartner partner tag.setError errR
      setIpcError p tag.setError errS
    else if cstate = .lockedRunningIpcDone then
      restoreState p
      unwindLoop p reason fuel tag
    else if cstate = .lockedRunning then
      let (errS, errR) ← calculateErrorcodes reason p partner
      let d ← readTcb partner
      if d.state = .lockedWaiting ∧ d.partner = (← readTcb p).myselfGlobal then
        abortPartner partner tag.setError errR
      if nested then
        restoreState p
        unwindLoop p reason fuel tag.setError
      else setIpcError p tag.setError errS
    else if cstate = .lockedRunningNested then
      let (errS, errR) ← calculateErrorcodes reason partner p
      if (← getState partner) = .waitingTunneledPf then
        abortPartner partner tag.setError errS
      setIpcError p tag.setError errR
    else if cstate = .lockedWaiting then
      let (errS, errR) ← calculateErrorcodes reason partner p
      if (← getState partner) = .lockedRunning then
        abortPartner partner tag.setError errS
      if nested then
        restoreState p
        unwindLoop p reason fuel tag.setError
      else setIpcError p tag.setError errR
    else pure ()

/-- `tcb_t::unwind`. -/
def unwind (p : TcbPtr) (reason : UnwindReason) : Kernel Unit := do
  unwindLoop p reason 3 (← getTag p)

/-! ## IPC errors and timeouts -/

/-- `return_from_ipc` and `return_from_user_interruption` drop the kernel activation. -/
def returnToUser (p : TcbPtr) : Kernel Unit := modTcb p fun c => { c with stack := [] }

/-- `handle_ipc_error`. -/
def handleIpcError (current : TcbPtr) : Kernel Unit := do
  modTcb current fun c => { c with hasXferTimeout := false }
  if (← readTcb current).savedState.isRunning then
    restoreRegisters current
    modTcb current fun c =>
      { c with
        partner := c.savedPartner, state := c.savedState
        savedPartner := .nilthread, savedState := .aborted }
    returnToUser current
  else
    modTcb current fun c => { c with savedState := .aborted }
    returnToUser current

/-- `handle_ipc_timeout`. -/
def handleIpcTimeout (current : TcbPtr) (state : ThreadState) : Kernel Unit := do
  setState current state
  unwind current .timeout
  setState current .running
  handleIpcError current

/-! ## Creation and activation -/

/-- `init_stack`: an empty kernel stack and a cleared exception frame. -/
def initStack (p : TcbPtr) : Kernel Unit :=
  modTcb p fun c => { c with stack := [], userIp := 0, userSp := 0, userFlags := 0 }

/-- `tcb_t::init`. The queue links, the scheduler and the flags keep their values. -/
def init (p : TcbPtr) (dest : ThreadId) : Kernel Unit := do
  modTcb p fun c =>
    { c with
      utcb := none, space := none
      state := .aborted, savedState := .aborted
      partner := .nilthread, savedPartner := .nilthread
      myselfGlobal := dest, myselfLocal := .nilthread
      queueState := .zero, sendHead := none }
  initTcb p
  initStack p

def createKernelThread (p : TcbPtr) (dest : ThreadId) (utcb : UtcbPtr) : Kernel Unit := do
  init p dest
  modTcb p fun c => { c with utcb := some utcb }
  setPriority p 0

def createInactive (p : TcbPtr) (dest scheduler : ThreadId) : Kernel Unit := do
  init p dest
  modTcb p fun c => { c with scheduler }

/-- `tcb_t::set_global_id`. -/
def setGlobalId (p : TcbPtr) (tid : ThreadId) : Kernel Unit := do
  modTcb p fun c => { c with myselfGlobal := tid }
  modUtcb p fun u => { u with myGlobalId := tid }

def setPager (p : TcbPtr) (pager : ThreadId) : Kernel Unit :=
  modUtcb p fun u => { u with pager }

def setScheduler (p : TcbPtr) (scheduler : ThreadId) : Kernel Unit :=
  modTcb p fun c => { c with scheduler }

def setUtcbLocation (p : TcbPtr) (utcbLocation : Word) : Kernel Unit :=
  modTcb p fun c => { c with myselfLocal := ⟨utcbLocation⟩ }

def setSpace (p : TcbPtr) (space : Option SpacePtr) : Kernel Unit :=
  modTcb p fun c => { c with space }

/-- `check_utcb_location` of a thread. -/
def checkUtcbLocation (p : TcbPtr) (utcbLocation : Word) : Kernel Bool := do
  let sp ← readSpace (← readTcb p).space
  pure (sp.checkUtcbLocation utcbLocation)

/-- `create_startup_stack`. -/
def createStartupStack (p : TcbPtr) (startup : Notify) : Kernel Unit := do
  initStack p
  notify p startup
  modTcb p fun c => { c with userFlags := userStatus }

/-- `tcb_t::activate`. The allocation of the UTCB does not return without one. -/
def activate (p : TcbPtr) (startup : Notify) (pager : ThreadId) : Kernel Unit := do
  let c ← readTcb p
  let utcb ← allocateUtcb c.space c.myselfLocal.raw
  modTcb p fun c => { c with utcb := some utcb }
  setGlobalId p c.myselfGlobal
  setPager p pager
  modUtcb p fun u => { u with processorNo := 0 }
  setScheduler p c.scheduler
  modUtcb p fun u => { u with exceptionHandler := .nilthread }
  createStartupStack p startup

/-- `fake_wait_for_startup`. -/
def fakeWaitForStartup (p : TcbPtr) (pager : ThreadId) : Kernel Unit := do
  setState p .waitingForever
  setPartner p pager
  setBr p 0 0
  modTcb p fun c => { c with savedPartner := .nilthread, savedState := .running }

/-- `thread_startup`. -/
def threadStartup (current : TcbPtr) : Kernel Unit := do
  let ip ← getMr current 1
  let sp ← getMr current 2
  modTcb current fun c => { c with userIp := ip, userSp := sp, savedState := .aborted }

/-! ## Deletion and migration -/

/-- The loop of `delete_tcb` over the threads that want to send to `p`. -/
def drainSendQueue (p : TcbPtr) : Nat → Kernel Unit
  | 0 => trap .hang
  | fuel + 1 => do
    match (← readTcb p).sendHead with
    | none => pure ()
    | some q =>
      dequeueSend q p
      drainSendQueue p fuel

/-- `tcb_t::delete_tcb`. -/
def deleteTcb (p : TcbPtr) : Kernel Unit := do
  if (← readTcb p).isActivated then
    dequeueReady p
    let state ← getState p
    if state.isSending ∨ state.isReceiving then unwind p .abort
    drainSendQueue p numTcbs
    modTcb p fun c => { c with utcb := none }
  modTcb p fun c =>
    { c with
      myselfGlobal := .nilthread, myselfLocal := .nilthread
      space := none, state := .aborted }

/-- `tcb_t::migrate_to_space`. When the thread was the last one of its old space, the mappings of
the new space are removed and the memory of the old one is freed. -/
def migrateToSpace (p : TcbPtr) (space : Option SpacePtr) : Kernel Unit := do
  let newUtcb ← allocateUtcb space (← readTcb p).myselfLocal.raw
  unwind p .abort
  let old := (← readTcb p).space
  if ← removeTcb old then
    unmapSpace (← derefSpace space)
    freeSpace (← derefSpace old)
  setSpace p space
  modTcb p fun c => { c with utcb := some newUtcb }

end Kernel

end L4Thread
