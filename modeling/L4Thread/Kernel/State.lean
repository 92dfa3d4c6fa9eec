import L4Thread.Api.Types
import L4Thread.Lib.Ring
import L4Thread.Lib.Trap

/-!
# Kernel state

The objects the uniprocessor kernel works on: thread control blocks, UTCBs, address spaces, the
kernel memory free list and the scheduler. A TCB is named by a slot of the array `t` or is the idle
TCB. A kernel entry is a computation of `Kernel`; it traps where the code would read through a null
pointer or stop for ever.

A thread that is switched away from inside the kernel keeps the rest of its kernel activation as a
list of `Frame`s, innermost first; a thread with no frames is at user level.
-/

namespace L4Thread

open Ring (Link)

/-- How a kernel entry can fail to return. -/
inductive Trap
  /-- A read or write through a TCB's null UTCB pointer. -/
  | nullUtcb
  /-- A read or write through a null space pointer. -/
  | nullSpace
  /-- A read or write through a null queue link. -/
  | nullLink
  /-- `UNIMPLEMENTED`, `enter_kdebug`, `panic` and `spin_forever`. -/
  | hang
  deriving DecidableEq

/-! ## Pointers -/

/-- A slot of the TCB array `t`, or `__idle_tcb`. -/
inductive TcbPtr
  | t (i : Fin (2 ^ validThreadnoBits))
  | idle
  deriving DecidableEq

/-- `kernel_utcb`, `irq_utcb`, `__idle_utcb`, or a UTCB at a kernel address. -/
inductive UtcbPtr
  | kernel
  | irq
  | idle
  | user (addr : Nat)
  deriving DecidableEq

/-- `__idle_space`, or a space allocated from kernel memory. -/
inductive SpacePtr
  | idle
  | heap (addr : Nat)
  deriving DecidableEq

/-- `space_t::get_tcb`: the thread number is masked to the bits of the TCB array. -/
def getTcb (tid : ThreadId) : TcbPtr :=
  .t ⟨tid.getThreadno % 2 ^ validThreadnoBits, Nat.mod_lt _ (by decide)⟩

/-! ## UTCBs -/

structure Utcb where
  myGlobalId : ThreadId
  processorNo : Word
  userDefinedHandle : Word
  pager : ThreadId
  exceptionHandler : ThreadId
  preemptFlags : PreemptFlags
  xferTimeout : Timeout
  errorCode : Word
  virtualSender : ThreadId
  mr : Nat → Word
  br : Nat → Word

/-- A UTCB in zeroed memory. -/
def Utcb.zero : Utcb where
  myGlobalId := .nilthread
  processorNo := 0
  userDefinedHandle := 0
  pager := .nilthread
  exceptionHandler := .nilthread
  preemptFlags := ⟨0⟩
  xferTimeout := .never
  errorCode := 0
  virtualSender := .nilthread
  mr := fun _ => 0
  br := fun _ => 0

/-! ## Address spaces -/

/-- `space_t`. Of the page table only the mappings of UTCB pages are kept, as pairs of a virtual
page address and the kernel address of the frame. -/
structure Space where
  kipArea : Fpage
  utcbArea : Fpage
  threadCount : Word
  utcbPages : List (Nat × Nat)
  deriving DecidableEq

def Space.zero : Space := ⟨⟨0⟩, ⟨0⟩, 0, []⟩

/-! ## Kernel activations -/

/-- The part of `extended_transfer`'s locals that belongs to the current string item. -/
structure StringCopy where
  srcItem : MsgItem
  dstItem : MsgItem
  srcAddr : Word
  srcLen : Word
  srcPtridx : Nat
  dstAddr : Word
  dstLen : Word
  dstPtridx : Nat
  deriving DecidableEq

/-- Where `extended_transfer` stands: at the head of the item loop, at the head of the copy loop of
a string item, or inside the `memcpy` of `len` of the `copyLength` bytes asked for. -/
inductive XferPoint
  | items
  | string (c : StringCopy)
  | copying (c : StringCopy) (copyLength len : Word)
  deriving DecidableEq

/-- The locals of `extended_transfer`. -/
structure Xfer where
  msgtag : MsgTag
  brIdx : Nat
  totalMrs : Nat
  totalLen : Word
  acceptStrings : Bool
  srcIdx : Nat
  point : XferPoint
  deriving DecidableEq

/-- A notify procedure to be run at the next dispatch of a thread. -/
inductive Notify
  | ipcError
  | ipcTimeout (state : ThreadState)
  | threadStartup
  | threadReturn
  | irqThread
  deriving DecidableEq

/-- A suspended part of a kernel activation. -/
inductive Frame
  /-- `SYS_IPC` behind the `switch_to_idle` of the send phase. -/
  | sendBlocked (toTid fromTid : ThreadId) (timeout : Timeout) (senderId : ThreadId)
  /-- `SYS_IPC` inside `extended_transfer`. -/
  | transfer (x : Xfer) (toTid fromTid : ThreadId) (timeout : Timeout)
  /-- `SYS_IPC` behind a `switch_to` of the receive phase that leaves no timeout pending. -/
  | received
  /-- `SYS_IPC` behind the `switch_to` of a blocking receive. -/
  | recvBlocked
  /-- `send_pagefault_ipc` behind `do_ipc`. -/
  | pagefault
  /-- `send_preemption_ipc` behind `do_ipc`, then the end of `handle_timer_interrupt`. -/
  | preemption
  | notify (n : Notify)
  /-- `irq_thread` behind the switch to the handler. -/
  | irqSent
  /-- `irq_thread` behind the `switch_to_idle` that ends its loop. -/
  | irqIdle
  deriving DecidableEq

/-! ## Thread control blocks -/

/-- The bits of `queue_state_t` the uniprocessor kernel uses. -/
structure QueueState where
  ready : Bool
  wakeup : Bool
  send : Bool
  deriving DecidableEq

def QueueState.zero : QueueState := ⟨false, false, false⟩

/-- `misc.ipc_copy`. -/
structure IpcCopy where
  savedMr : Fin 3 → Word
  savedBr0 : Word
  savedError : Word
  copyLength : Word
  copyStartSrc : Word
  copyStartDst : Word
  copyFault : Word

structure Tcb where
  myselfGlobal : ThreadId
  myselfLocal : ThreadId
  utcb : Option UtcbPtr
  state : ThreadState
  partner : ThreadId
  queueState : QueueState
  sendHead : Option TcbPtr
  totalQuantum : Word
  timesliceLength : Word
  currentTimeslice : Word
  absoluteTimeout : Word
  priority : Int
  sensitivePrio : Int
  currentMaxDelay : BitVec 16
  maxDelay : BitVec 16
  scheduler : ThreadId
  space : Option SpacePtr
  hasXferTimeout : Bool
  ipcCopy : IpcCopy
  savedPartner : ThreadId
  savedState : ThreadState
  userIp : Word
  userSp : Word
  userFlags : Word
  /-- The thread id the last `SYS_IPC` returned to user level. -/
  ipcResult : ThreadId
  stack : List Frame

/-- A TCB in zeroed memory. -/
def Tcb.zero : Tcb where
  myselfGlobal := .nilthread
  myselfLocal := .nilthread
  utcb := none
  state := .zero
  partner := .nilthread
  queueState := .zero
  sendHead := none
  totalQuantum := 0
  timesliceLength := 0
  currentTimeslice := 0
  absoluteTimeout := 0
  priority := 0
  sensitivePrio := 0
  currentMaxDelay := 0
  maxDelay := 0
  scheduler := .nilthread
  space := none
  hasXferTimeout := false
  ipcCopy := ⟨fun _ => 0, 0, 0, 0, 0, 0, 0⟩
  savedPartner := .nilthread
  savedState := .zero
  userIp := 0
  userSp := 0
  userFlags := 0
  ipcResult := .nilthread
  stack := []

namespace Tcb

/-- A TCB exists while it belongs to a space. -/
def isExisting (c : Tcb) : Bool := c.space.isSome

/-- A TCB is activated while it has a UTCB. -/
def isActivated (c : Tcb) : Bool := c.utcb.isSome

end Tcb

/-! ## The state and its computations -/

/-- `kmem_t`: the free chunks in list order, and their number. -/
structure Kmem where
  freeList : List Nat
  freeChunks : Nat
  deriving DecidableEq

structure KState where
  tcb : TcbPtr → Tcb
  utcb : UtcbPtr → Utcb
  space : SpacePtr → Space
  kmem : Kmem
  readyList : TcbPtr → Link TcbPtr
  waitList : TcbPtr → Link TcbPtr
  sendList : TcbPtr → Link TcbPtr
  /-- The heads of `root_prio_queue`. -/
  prioQueue : Int → Option TcbPtr
  maxPrio : Int
  /-- `current_timeslice` of `root_prio_queue`. -/
  queueTimeslice : Word
  wakeupList : Option TcbPtr
  currentTime : Word
  currentTcb : TcbPtr
  sigma0Space : Option SpacePtr
  sigma1Space : Option SpacePtr
  roottaskSpace : Option SpacePtr
  /-- `arch.int_mask` of the idle TCB: the enabled interrupt lines. -/
  intMask : Nat → Bool

/-- A computation of the kernel. -/
abbrev Kernel := TrapM Trap KState

namespace Kernel

open TrapM

def getCurrentTcb : Kernel TcbPtr := gets (·.currentTcb)

def readTcb (p : TcbPtr) : Kernel Tcb := gets (·.tcb p)

def modTcb (p : TcbPtr) (f : Tcb → Tcb) : Kernel Unit :=
  modify fun s => { s with tcb := Function.update s.tcb p (f (s.tcb p)) }

/-- The UTCB pointer of `p`, about to be dereferenced. -/
def getUtcb (p : TcbPtr) : Kernel UtcbPtr := do
  match (← readTcb p).utcb with
  | some u => pure u
  | none => trap .nullUtcb

def readUtcb (p : TcbPtr) : Kernel Utcb := do
  let u ← getUtcb p
  gets (·.utcb u)

def modUtcb (p : TcbPtr) (f : Utcb → Utcb) : Kernel Unit := do
  let u ← getUtcb p
  modify fun s => { s with utcb := Function.update s.utcb u (f (s.utcb u)) }

/-- The space pointer, about to be dereferenced. -/
def derefSpace : Option SpacePtr → Kernel SpacePtr
  | some sp => pure sp
  | none => trap .nullSpace

def readSpace (sp : Option SpacePtr) : Kernel Space := do
  let sp ← derefSpace sp
  gets (·.space sp)

def modSpace (sp : SpacePtr) (f : Space → Space) : Kernel Unit :=
  modify fun s => { s with space := Function.update s.space sp (f (s.space sp)) }

def modKmem (f : Kmem → Kmem) : Kernel Unit := modify fun s => { s with kmem := f s.kmem }

def setMaxPrio (maxPrio : Int) : Kernel Unit := modify fun s => { s with maxPrio }

def setQueueTimeslice (queueTimeslice : Word) : Kernel Unit :=
  modify fun s => { s with queueTimeslice }

def setSendLinks (sendList : TcbPtr → Link TcbPtr) : Kernel Unit :=
  modify fun s => { s with sendList }

/-- Continue unless a queue macro met a null link. -/
def ofLinks {α : Type} : Option α → Kernel α
  | some a => pure a
  | none => trap .nullLink

/-! ### Access functions of `tcb_t` -/

def getState (p : TcbPtr) : Kernel ThreadState := do return (← readTcb p).state

def setState (p : TcbPtr) (state : ThreadState) : Kernel Unit :=
  modTcb p fun c => { c with state }

def getPartner (p : TcbPtr) : Kernel ThreadId := do return (← readTcb p).partner

def setPartner (p : TcbPtr) (partner : ThreadId) : Kernel Unit :=
  modTcb p fun c => { c with partner }

def getPartnerTcb (p : TcbPtr) : Kernel TcbPtr := do return getTcb (← readTcb p).partner

def setErrorCode (p : TcbPtr) (errorCode : Word) : Kernel Unit :=
  modUtcb p fun u => { u with errorCode }

def getMr (p : TcbPtr) (index : Nat) : Kernel Word := do return (← readUtcb p).mr index

def setMr (p : TcbPtr) (index : Nat) (value : Word) : Kernel Unit :=
  modUtcb p fun u => { u with mr := Function.update u.mr index value }

def getBr (p : TcbPtr) (index : Nat) : Kernel Word := do return (← readUtcb p).br index

def setBr (p : TcbPtr) (index : Nat) (value : Word) : Kernel Unit :=
  modUtcb p fun u => { u with br := Function.update u.br index value }

def getTag (p : TcbPtr) : Kernel MsgTag := do return ⟨← getMr p 0⟩

def setTag (p : TcbPtr) (tag : MsgTag) : Kernel Unit := setMr p 0 tag.raw

/-- Copy `count` message registers from `start` on. -/
def copyMrs (src dst : TcbPtr) (start count : Nat) : Kernel Unit := do
  let u ← readUtcb src
  modUtcb dst fun v =>
    { v with mr := fun i => if start ≤ i ∧ i < start + count then u.mr i else v.mr i }

/-- Push a frame on the kernel stack of `p`. -/
def pushFrame (p : TcbPtr) (f : Frame) : Kernel Unit :=
  modTcb p fun c => { c with stack := f :: c.stack }

/-- `tcb_t::notify`. -/
def notify (p : TcbPtr) (n : Notify) : Kernel Unit := pushFrame p (.notify n)

/-- `tcb_t::switch_to`. What `current` still has to do is in its frames. -/
def switchTo (dest : TcbPtr) : Kernel Unit := modify fun s => { s with currentTcb := dest }

def switchToIdle : Kernel Unit := switchTo .idle

end Kernel

end L4Thread
