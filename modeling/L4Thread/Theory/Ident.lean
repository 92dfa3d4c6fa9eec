import L4Thread.Kernel.Boot

/-!
# The identity part of the state

`KState.ident` is what thread control is about: the ids, the UTCB pointer, the space and the
scheduler of every TCB, all address spaces, kernel memory and the privileged spaces. The scheduler,
IPC, ExchangeRegisters, page faults, the timer and the interrupt threads leave it alone, so that
every invariant about it is a matter of `SYS_THREAD_CONTROL` and `SYS_SPACE_CONTROL` only.
-/

namespace L4Thread

open TrapM Kernel

/-- The identity of a TCB. -/
structure TcbIdent where
  myselfGlobal : ThreadId
  myselfLocal : ThreadId
  utcb : Option UtcbPtr
  space : Option SpacePtr
  scheduler : ThreadId
  deriving DecidableEq

@[grind] def Tcb.ident (c : Tcb) : TcbIdent :=
  ⟨c.myselfGlobal, c.myselfLocal, c.utcb, c.space, c.scheduler⟩

structure Ident where
  tcb : TcbPtr → TcbIdent
  space : SpacePtr → Space
  kmem : Kmem
  sigma0Space : Option SpacePtr
  sigma1Space : Option SpacePtr
  roottaskSpace : Option SpacePtr

def KState.ident (s : KState) : Ident :=
  ⟨fun p => (s.tcb p).ident, s.space, s.kmem, s.sigma0Space, s.sigma1Space, s.roottaskSpace⟩

/-- The computation leaves the identity part of the state alone. -/
abbrev KeepsIdent {α : Type} (x : Kernel α) : Prop := Keeps KState.ident x

/-! ## State access -/

@[grind ←] theorem keepsIdent_modTcb {p : TcbPtr} {f : Tcb → Tcb}
    (h : ∀ c, (f c).ident = c.ident) : KeepsIdent (modTcb p f) := by
  refine .modify fun s => ?_
  simp only [KState.ident, Ident.mk.injEq, and_true]
  funext q
  rcases eq_or_ne q p with rfl | hq
  · simp [h]
  · simp [hq]

section Access

variable {α τ : Type} {g : KState → τ} {p q : TcbPtr} {o : Option α} {sp : Option SpacePtr}
  {f : Utcb → Utcb}

@[grind ←] theorem keeps_readTcb : Keeps g (readTcb p) := .gets _

@[grind ←] theorem keeps_getCurrentTcb : Keeps g getCurrentTcb := .gets _

@[grind ←] theorem keeps_ofLinks : Keeps g (ofLinks o) := by
  cases o with
  | none => exact .trap _
  | some a => exact .pure a

@[grind ←] theorem keeps_derefSpace : Keeps g (derefSpace sp) := by
  cases sp with
  | none => exact .trap _
  | some a => exact .pure a

@[grind ←] theorem keeps_getUtcb : Keeps g (getUtcb p) := by
  unfold getUtcb
  grind

@[grind ←] theorem keeps_readUtcb : Keeps g (readUtcb p) := by
  unfold readUtcb
  grind

@[grind ←] theorem keeps_readSpace : Keeps g (readSpace sp) := by
  unfold readSpace
  grind

@[grind ←] theorem keepsIdent_modUtcb : KeepsIdent (modUtcb p f) :=
  .bind keeps_getUtcb fun _ => .modify fun _ => rfl

@[grind ←] theorem keepsIdent_writeUtcb {ptr : UtcbPtr} {u : Utcb} :
    KeepsIdent (writeUtcb ptr u) :=
  .modify fun _ => rfl

@[grind ←] theorem keepsIdent_setMaxPrio {n : Int} : KeepsIdent (setMaxPrio n) :=
  .modify fun _ => rfl

@[grind ←] theorem keepsIdent_setQueueTimeslice {w : Word} : KeepsIdent (setQueueTimeslice w) :=
  .modify fun _ => rfl

@[grind ←] theorem keepsIdent_setSendLinks {l : TcbPtr → Ring.Link TcbPtr} :
    KeepsIdent (setSendLinks l) :=
  .modify fun _ => rfl

@[grind ←] theorem keepsIdent_switchTo : KeepsIdent (switchTo p) := .modify fun _ => rfl

@[grind ←] theorem keepsIdent_tickTime : KeepsIdent tickTime :=
  .modify fun _ => by simp only [KState.ident]

@[grind ←] theorem keepsIdent_setIntMask {irq : Nat} {b : Bool} :
    KeepsIdent (setIntMask irq b) :=
  .modify fun _ => rfl

@[grind ←] theorem keepsIdent_setReadyQueue {prio : Int} {h : Option TcbPtr}
    {l : TcbPtr → Ring.Link TcbPtr} : KeepsIdent (setReadyQueue prio h l) :=
  .modify fun _ => rfl

@[grind ←] theorem keepsIdent_setPrioQueue {prio : Int} {h : Option TcbPtr} :
    KeepsIdent (setPrioQueue prio h) :=
  .modify fun _ => rfl

@[grind ←] theorem keepsIdent_setWakeupList {h : Option TcbPtr} {l : TcbPtr → Ring.Link TcbPtr} :
    KeepsIdent (setWakeupList h l) :=
  .modify fun _ => rfl

end Access

attribute [grind] setState setPartner getState getPartner getPartnerTcb setErrorCode getMr setMr
  getBr setBr getTag setTag copyMrs pushFrame notify switchToIdle setReady setWakeup setSend
  getCurrentSpace returnIpc returnToUser initStack

/-! ## The scheduler -/

section Schedule

variable {p q : TcbPtr} {b : Bool}

@[grind ←] theorem keepsIdent_enqueueReady : KeepsIdent (enqueueReady p b) := by
  unfold enqueueReady
  grind

@[grind ←] theorem keepsIdent_dequeueReady : KeepsIdent (dequeueReady p) := by
  unfold dequeueReady
  grind

@[grind ←] theorem keepsIdent_setTimeout {t : Time} : KeepsIdent (setTimeout p t) := by
  unfold setTimeout setTimeoutAt
  grind

@[grind ←] theorem keepsIdent_cancelTimeout : KeepsIdent (cancelTimeout p) := by
  unfold cancelTimeout
  grind

@[grind ←] theorem keepsIdent_delayPreemption : KeepsIdent (delayPreemption p q) := by
  unfold delayPreemption
  grind

@[grind ←] theorem keepsIdent_checkDispatchThread : KeepsIdent (checkDispatchThread p q) := by
  unfold checkDispatchThread
  grind

@[grind ←] theorem keepsIdent_preemptThread : KeepsIdent (preemptThread p q) := by
  unfold preemptThread
  grind

@[grind ←] theorem keepsIdent_findRunnable {prio : Int} (fuel : Nat) :
    KeepsIdent (findRunnable prio fuel) := by
  induction fuel with
  | zero => exact .trap _
  | succ fuel ih =>
    unfold findRunnable
    grind

@[grind ←] theorem keepsIdent_findBelow (n : Nat) : KeepsIdent (findBelow n) := by
  induction n with
  | zero =>
    unfold findBelow
    grind
  | succ n ih =>
    unfold findBelow
    grind

@[grind ←] theorem keepsIdent_schedule : KeepsIdent (schedule p) := by
  unfold schedule findNextThread
  grind

@[grind ←] theorem keepsIdent_endOfTimeslice : KeepsIdent (endOfTimeslice p) := by
  unfold endOfTimeslice
  repeat' first | with_reducible refine Keeps.bind ?_ fun _ => ?_ | split
  all_goals grind

@[grind ←] theorem keepsIdent_wakeupExpired : KeepsIdent (wakeupExpired p q) := by
  unfold wakeupExpired
  repeat' first | with_reducible refine Keeps.bind ?_ fun _ => ?_ | split
  all_goals grind

@[grind ←] theorem keepsIdent_parseLoop (fuel : Nat) : KeepsIdent (parseLoop fuel p q) := by
  induction fuel generalizing p q with
  | zero => exact .trap _
  | succ fuel ih =>
    unfold parseLoop
    grind

@[grind ←] theorem keepsIdent_parseWakeupQueues : KeepsIdent (parseWakeupQueues p) := by
  unfold parseWakeupQueues
  grind

@[grind ←] theorem keepsIdent_sysThreadSwitch {dest : ThreadId} :
    KeepsIdent (sysThreadSwitch dest) := by
  unfold sysThreadSwitch
  repeat' first | with_reducible refine Keeps.bind ?_ fun _ => ?_ | split
  all_goals grind

@[grind ←] theorem keepsIdent_setPriority {prio : Int} : KeepsIdent (setPriority p prio) :=
  keepsIdent_modTcb fun _ => rfl

@[grind ←] theorem keepsIdent_setSensitivePrio {prio : Int} :
    KeepsIdent (setSensitivePrio p prio) :=
  keepsIdent_modTcb fun _ => rfl

@[grind ←] theorem keepsIdent_setTotalQuantum {t : Time} : KeepsIdent (setTotalQuantum p t) :=
  keepsIdent_modTcb fun _ => rfl

@[grind ←] theorem keepsIdent_setTimesliceLength {t : Time} :
    KeepsIdent (setTimesliceLength p t) :=
  keepsIdent_modTcb fun _ => rfl

@[grind ←] theorem keepsIdent_setMaximumDelay {d : BitVec 16} :
    KeepsIdent (setMaximumDelay p d) :=
  keepsIdent_modTcb fun _ => rfl

@[grind ←] theorem keepsIdent_schedulePrio {w : Word} : KeepsIdent (schedulePrio p w) := by
  unfold schedulePrio
  grind

@[grind ←] theorem keepsIdent_scheduleTime {t₁ t₂ : Time} :
    KeepsIdent (scheduleTime p t₁ t₂) := by
  unfold scheduleTime
  grind

@[grind ←] theorem keepsIdent_schedulePreemption {d : BitVec 16} {prio : Int} :
    KeepsIdent (schedulePreemption p d prio) := by
  unfold schedulePreemption
  grind

@[grind ←] theorem keepsIdent_doSchedule {w₁ w₂ w₃ : Word} :
    KeepsIdent (doSchedule p w₁ w₂ w₃) := by
  unfold doSchedule
  grind

@[grind ←] theorem keepsIdent_sysSchedule {dest : ThreadId} {w₁ w₂ w₃ : Word} :
    KeepsIdent (sysSchedule dest w₁ w₂ w₃) := by
  unfold sysSchedule
  repeat' first | with_reducible refine Keeps.bind ?_ fun _ => ?_ | split
  all_goals grind

end Schedule

/-! ## Unwinding and IPC errors -/

section Thread

variable {p q : TcbPtr} {reason : UnwindReason}

@[grind ←] theorem keepsIdent_setSendQueue {h : Option TcbPtr} {l : TcbPtr → Ring.Link TcbPtr} :
    KeepsIdent (setSendQueue p h l) := by
  unfold setSendQueue
  grind

@[grind ←] theorem keepsIdent_enqueueSend : KeepsIdent (enqueueSend p q) := by
  unfold enqueueSend
  grind

@[grind ←] theorem keepsIdent_dequeueSend : KeepsIdent (dequeueSend p q) := by
  unfold dequeueSend
  grind

@[grind ←] theorem keepsIdent_saveState : KeepsIdent (saveState p) := by
  unfold saveState
  grind

@[grind ←] theorem keepsIdent_restoreState : KeepsIdent (restoreState p) := by
  unfold restoreState restoreRegisters
  grind

@[grind ←] theorem keepsIdent_timeLt {t₁ t₂ : Time} : KeepsIdent (timeLt t₁ t₂) := by
  unfold timeLt absoluteTime
  grind

@[grind ←] theorem keepsIdent_calculateErrorcodes :
    KeepsIdent (calculateErrorcodes reason p q) := by
  unfold calculateErrorcodes
  grind

@[grind ←] theorem keepsIdent_abortPartner {tag : MsgTag} {err : Word} :
    KeepsIdent (abortPartner p tag err) := by
  unfold abortPartner
  grind

@[grind ←] theorem keepsIdent_unwindLoop (fuel : Nat) {tag : MsgTag} :
    KeepsIdent (unwindLoop p reason fuel tag) := by
  induction fuel generalizing tag with
  | zero => exact .trap _
  | succ fuel ih =>
    unfold unwindLoop setIpcError
    repeat' first | with_reducible refine Keeps.bind ?_ fun _ => ?_ | split
    all_goals grind

@[grind ←] theorem keepsIdent_unwind : KeepsIdent (unwind p reason) := by
  unfold unwind
  grind

@[grind ←] theorem keepsIdent_handleIpcError : KeepsIdent (handleIpcError p) := by
  unfold handleIpcError restoreRegisters
  grind

@[grind ←] theorem keepsIdent_handleIpcTimeout {st : ThreadState} :
    KeepsIdent (handleIpcTimeout p st) := by
  unfold handleIpcTimeout
  grind

@[grind ←] theorem keepsIdent_threadStartup : KeepsIdent (threadStartup p) := by
  unfold threadStartup
  grind

@[grind ←] theorem keepsIdent_drainSendQueue (fuel : Nat) : KeepsIdent (drainSendQueue p fuel) := by
  induction fuel with
  | zero => exact .trap _
  | succ fuel ih =>
    unfold drainSendQueue
    grind

end Thread

/-! ## IPC -/

section Ipc

variable {p q : TcbPtr} {o : Option TcbPtr} {tid tid' : ThreadId} {timeout : Timeout} {x : Xfer}

@[grind ←] theorem keepsIdent_copyMr {i : Nat} : KeepsIdent (copyMr p q i) := by
  unfold copyMr
  grind

@[grind ←] theorem keepsIdent_extendedTransfer {tag : MsgTag} :
    KeepsIdent (extendedTransfer p q tag) := by
  unfold extendedTransfer
  dsimp only
  repeat' first | with_reducible refine Keeps.bind ?_ fun _ => ?_ | split
  all_goals grind

@[grind ←] theorem keepsIdent_messageOverflow : KeepsIdent (messageOverflow p q x) := by
  unfold messageOverflow
  grind

@[grind ←] theorem keepsIdent_transferDone : KeepsIdent (transferDone p x) := by
  unfold transferDone
  grind

@[grind ←] theorem keepsIdent_stringItem {i : MsgItem} : KeepsIdent (stringItem p q x i) := by
  unfold stringItem
  repeat' first | with_reducible refine Keeps.bind ?_ fun _ => ?_ | split
  all_goals grind

@[grind ←] theorem keepsIdent_transferItem : KeepsIdent (transferItem p q x) := by
  unfold transferItem
  repeat' first | with_reducible refine Keeps.bind ?_ fun _ => ?_ | split
  all_goals grind

@[grind ←] theorem keepsIdent_startCopy {c : StringCopy} : KeepsIdent (startCopy p q x c) := by
  unfold startCopy
  repeat' first | with_reducible refine Keeps.bind ?_ fun _ => ?_ | split
  all_goals grind

@[grind ←] theorem keepsIdent_skipBuffer (fuel : Nat) {i : Nat} {item : MsgItem} :
    KeepsIdent (skipBuffer p fuel i item) := by
  induction fuel generalizing i item with
  | zero => exact .trap _
  | succ fuel ih =>
    unfold skipBuffer
    grind

@[grind ←] theorem keepsIdent_nextBuffer {c : StringCopy} : KeepsIdent (nextBuffer p q x c) := by
  unfold nextBuffer
  repeat' first | with_reducible refine Keeps.bind ?_ fun _ => ?_ | split
  all_goals grind

@[grind ←] theorem keepsIdent_finishCopy {c : StringCopy} {w₁ w₂ : Word} :
    KeepsIdent (finishCopy p q x c w₁ w₂) := by
  unfold finishCopy
  repeat' first | with_reducible refine Keeps.bind ?_ fun _ => ?_ | split
  all_goals grind

@[grind ←] theorem keepsIdent_transferStep : KeepsIdent (transferStep p q x) := by
  unfold transferStep
  grind

@[grind ←] theorem keepsIdent_receivePartner : KeepsIdent (receivePartner p tid) := by
  unfold receivePartner
  grind

@[grind ←] theorem keepsIdent_receiveBlocking :
    KeepsIdent (receiveBlocking p o tid timeout) := by
  unfold receiveBlocking
  repeat' first | with_reducible refine Keeps.bind ?_ fun _ => ?_ | split
  all_goals grind

@[grind ←] theorem keepsIdent_receiveFrom : KeepsIdent (receiveFrom p o q) := by
  unfold receiveFrom
  repeat' first | with_reducible refine Keeps.bind ?_ fun _ => ?_ | split
  all_goals grind

@[grind ←] theorem keepsIdent_ipcReceive : KeepsIdent (ipcReceive p o tid tid' timeout) := by
  unfold ipcReceive
  repeat' first | with_reducible refine Keeps.bind ?_ fun _ => ?_ | split
  all_goals grind

@[grind ←] theorem keepsIdent_sendOnly : KeepsIdent (sendOnly p q) := by
  unfold sendOnly
  repeat' first | with_reducible refine Keeps.bind ?_ fun _ => ?_ | split
  all_goals grind

@[grind ←] theorem keepsIdent_sendFinished : KeepsIdent (sendFinished p o tid tid' timeout) := by
  unfold sendFinished
  grind

@[grind ←] theorem keepsIdent_transferFailed : KeepsIdent (transferFailed p q tid) := by
  unfold transferFailed
  grind

@[grind ←] theorem keepsIdent_ipcTransfer {sender : ThreadId} :
    KeepsIdent (ipcTransfer p q tid tid' timeout sender) := by
  unfold ipcTransfer
  repeat' first | with_reducible refine Keeps.bind ?_ fun _ => ?_ | split
  all_goals grind

@[grind ←] theorem keepsIdent_ipcSenderId : KeepsIdent (ipcSenderId p q) := by
  unfold ipcSenderId
  repeat' first | with_reducible refine Keeps.bind ?_ fun _ => ?_ | split
  all_goals grind

@[grind ←] theorem keepsIdent_sendBlocking {sender : ThreadId} :
    KeepsIdent (sendBlocking p q tid tid' timeout sender) := by
  unfold sendBlocking
  dsimp only
  repeat' first | with_reducible refine Keeps.bind ?_ fun _ => ?_ | split
  all_goals grind

@[grind ←] theorem keepsIdent_sysIpc : KeepsIdent (sysIpc tid tid' timeout) := by
  unfold sysIpc
  repeat' first | with_reducible refine Keeps.bind ?_ fun _ => ?_ | split
  all_goals grind

@[grind ←] theorem keepsIdent_resumeSend {sender : ThreadId} :
    KeepsIdent (resumeSend p tid tid' timeout sender) := by
  unfold resumeSend
  grind

@[grind ←] theorem keepsIdent_resumeTransfer :
    KeepsIdent (resumeTransfer p x tid tid' timeout) := by
  unfold resumeTransfer
  repeat' first | with_reducible refine Keeps.bind ?_ fun _ => ?_ | split
  all_goals grind

@[grind ←] theorem keepsIdent_resumeReceived : KeepsIdent (resumeReceived p) := by
  unfold resumeReceived
  grind

@[grind ←] theorem keepsIdent_resumeRecvBlocked : KeepsIdent (resumeRecvBlocked p) := by
  unfold resumeRecvBlocked
  grind

end Ipc

/-! ## Exceptions, interrupts and the remaining entries -/

section Entries

variable {p q : TcbPtr} {a : ExregsArgs}

@[grind ←] theorem keepsIdent_exregsWrite : KeepsIdent (exregsWrite p a) := by
  unfold exregsWrite setUserFlags
  repeat' first | with_reducible refine Keeps.bind ?_ fun _ => ?_ | split
  all_goals grind

@[grind ←] theorem keepsIdent_exregsIpc : KeepsIdent (exregsIpc p a) := by
  unfold exregsIpc exregsAbort
  repeat' first | with_reducible refine Keeps.bind ?_ fun _ => ?_ | split
  all_goals grind

@[grind ←] theorem keepsIdent_exregsHalt : KeepsIdent (exregsHalt p a) := by
  unfold exregsHalt
  repeat' first | with_reducible refine Keeps.bind ?_ fun _ => ?_ | split
  all_goals grind

@[grind ←] theorem keepsIdent_performExregs : KeepsIdent (performExregs p a) := by
  unfold performExregs
  repeat' with_reducible refine Keeps.bind ?_ fun _ => ?_
  all_goals grind

@[grind ←] theorem keepsIdent_sysExchangeRegisters : KeepsIdent (sysExchangeRegisters a) := by
  unfold sysExchangeRegisters
  repeat' first | with_reducible refine Keeps.bind ?_ fun _ => ?_ | split
  all_goals grind

@[grind ←] theorem keepsIdent_sendPagefaultIpc {addr ip : Word} {access : Access} :
    KeepsIdent (sendPagefaultIpc p addr ip access) := by
  unfold sendPagefaultIpc setPagefaultMessage
  repeat' first | with_reducible refine Keeps.bind ?_ fun _ => ?_ | split
  all_goals grind

@[grind ←] theorem keepsIdent_resumePagefault : KeepsIdent (resumePagefault p) := by
  unfold resumePagefault
  grind

@[grind ←] theorem keepsIdent_handleXferTimeouts : KeepsIdent (handleXferTimeouts p) := by
  unfold handleXferTimeouts
  repeat' first | with_reducible refine Keeps.bind ?_ fun _ => ?_ | split
  all_goals grind

@[grind ←] theorem keepsIdent_handlePagefault {addr ip : Word} {access : Access} {b : Bool} :
    KeepsIdent (handlePagefault addr ip access b) := by
  unfold handlePagefault isSigma0Space
  repeat' first | with_reducible refine Keeps.bind ?_ fun _ => ?_ | split
  all_goals grind

@[grind ←] theorem keepsIdent_sendPreemptionIpc {time : Word} :
    KeepsIdent (sendPreemptionIpc p time) := by
  unfold sendPreemptionIpc
  repeat' first | with_reducible refine Keeps.bind ?_ fun _ => ?_ | split
  all_goals grind

@[grind ←] theorem keepsIdent_reschedule : KeepsIdent (reschedule p) := by
  unfold reschedule
  grind

@[grind ←] theorem keepsIdent_resumePreemption : KeepsIdent (resumePreemption p) := by
  unfold resumePreemption
  grind

@[grind ←] theorem keepsIdent_tickTimeslice : KeepsIdent (tickTimeslice p q) := by
  unfold tickTimeslice
  repeat' first | with_reducible refine Keeps.bind ?_ fun _ => ?_ | split
  all_goals grind

@[grind ←] theorem keepsIdent_chargeQuantum : KeepsIdent (chargeQuantum p) := by
  unfold chargeQuantum
  repeat' first | with_reducible refine Keeps.bind ?_ fun _ => ?_ | split
  all_goals grind

@[grind ←] theorem keepsIdent_handleTimerInterrupt : KeepsIdent handleTimerInterrupt := by
  unfold handleTimerInterrupt
  repeat' first | with_reducible refine Keeps.bind ?_ fun _ => ?_ | split
  all_goals grind

@[grind ←] theorem keepsIdent_handleInterrupt {irq : Nat} :
    KeepsIdent (handleInterrupt irq) := by
  unfold handleInterrupt
  repeat' first | with_reducible refine Keeps.bind ?_ fun _ => ?_ | split
  all_goals grind

@[grind ←] theorem keepsIdent_irqActivated : KeepsIdent (irqActivated p) := by
  unfold irqActivated
  grind

@[grind ←] theorem keepsIdent_irqThread : KeepsIdent (irqThread p) := by
  unfold irqThread
  repeat' first | with_reducible refine Keeps.bind ?_ fun _ => ?_ | split
  all_goals grind

@[grind ←] theorem keepsIdent_runFrame {f : Frame} : KeepsIdent (runFrame p f) := by
  cases f with
  | notify n =>
    cases n with
    | _ => simp only [runFrame, runNotify]; grind
  | _ => simp only [runFrame]; grind

@[grind ←] theorem keepsIdent_resume : KeepsIdent Kernel.resume := by
  unfold Kernel.resume
  grind

end Entries

/-- The events whose kernel entry may change the identity part of the state. -/
def Event.isControl : Event → Bool
  | .threadControl _ | .spaceControl _ => true
  | _ => false

theorem keepsIdent_runEvent {e : Event} (he : e.isControl = false) : KeepsIdent (runEvent e) := by
  cases e with
  | threadControl | spaceControl => cases he
  | _ => simp only [runEvent]; grind

/-- Every other step of the system leaves the identity part alone. -/
theorem KState.Step.ident {s t : KState} {e : Event} (h : s.Step e t) (he : e.isControl = false) :
    t.ident = s.ident :=
  keepsIdent_runEvent he s () t (step_iff.mp h).2

end L4Thread
