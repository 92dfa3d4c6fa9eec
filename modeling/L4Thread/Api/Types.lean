import Mathlib.Algebra.Order.Ring.Nat
import Mathlib.Tactic.Common

/-!
# API types

Thread ids, time values, message tags and items, flexpages, preemption flags and thread states of
the V4 API on the 64-bit big-endian MIPS64 configuration (`include/api/v4`). Every bit field keeps
its position in the raw word.
-/

namespace L4Thread

/-- `word_t` of the 64-bit configuration. -/
abbrev Word := BitVec 64

/-! ## Configuration -/

/-- Number of interrupts of the platform; `thread_info.get_system_base()`. -/
def systemBase : Nat := 7

/-- First thread number of user threads; `thread_info.get_user_base()`. -/
def userBase : Nat := systemBase + 32

/-- Number of bits of a thread number that select a TCB. -/
def validThreadnoBits : Nat := 27

def maxPrio : Int := 255

def rootPriority : Int := maxPrio

def defaultPriority : Int := 100

def rootVersion : Nat := 1

def rootMaxThreads : Nat := 256

def ipcNumMr : Nat := 64

def ipcNumBr : Nat := 33

/-- `sizeof (utcb_t)`. -/
def sizeofUtcb : Nat := 1024

/-- `utcb_info.alignment`: a UTCB location is a multiple of `2 ^ utcbAlignment`. -/
def utcbAlignment : Nat := 10

/-- `utcb_info.get_minimal_size()`. -/
def utcbMinimalSize : Nat := 4096

/-- `kip_area_info.get_size_log2()`. -/
def kipAreaSizeLog2 : Nat := 12

def rootUtcbStart : Word := 0x100000000

def rootKipStart : Word := 0x200000000

/-- `get_timer_tick_length()` in microseconds. -/
def timerTickLength : Word := 2000

/-! ## Thread ids -/

/-- A thread id; `version` is the low and `threadno` the high half of the word. -/
structure ThreadId where
  raw : Word
  deriving DecidableEq

namespace ThreadId

def nilthread : ThreadId := ⟨0⟩

def anythread : ThreadId := ⟨BitVec.allOnes 64⟩

/-- The local id with all bits set: the six `zero` bits are clear. -/
def anylocalthread : ThreadId := ⟨BitVec.allOnes 64 <<< 6⟩

def threadid (threadno version : Nat) : ThreadId :=
  ⟨BitVec.ofNat 64 (threadno % 2 ^ 32 * 2 ^ 32 + version % 2 ^ 32)⟩

def irqthread (irq : Nat) : ThreadId := threadid irq 1

def getThreadno (t : ThreadId) : Nat := t.raw.toNat / 2 ^ 32

def getVersion (t : ThreadId) : Nat := t.raw.toNat % 2 ^ 32

def getIrqno (t : ThreadId) : Nat := t.getThreadno

def isNilthread (t : ThreadId) : Bool := t == nilthread

def isAnythread (t : ThreadId) : Bool := t == anythread

def isAnylocalthread (t : ThreadId) : Bool := t == anylocalthread

/-- The `zero` field of the local view is not zero. -/
def isGlobal (t : ThreadId) : Bool := t.raw.toNat % 64 != 0

def isInterrupt (t : ThreadId) : Bool := t.getVersion == 1 && t.getThreadno < systemBase

end ThreadId

/-! ## Time -/

/-- A 16-bit time value: mantissa in bits 0-9, exponent in bits 10-14, type in bit 15. -/
structure Time where
  raw : BitVec 16
  deriving DecidableEq

namespace Time

def never : Time := ⟨0⟩

def zero : Time := ⟨0x400⟩

def period (mantissa exponent : Nat) : Time :=
  ⟨BitVec.ofNat 16 (exponent % 32 * 2 ^ 10 + mantissa % 2 ^ 10)⟩

def mantissa (t : Time) : Nat := t.raw.toNat % 2 ^ 10

def exponent (t : Time) : Nat := t.raw.toNat / 2 ^ 10 % 32

def isNever (t : Time) : Bool := t == never

def isZero (t : Time) : Bool := t == zero

def isPoint (t : Time) : Bool := t.raw.getLsbD 15

def isPeriod (t : Time) : Bool := !t.isPoint

/-- `(1 << exponent) * mantissa` in `int` arithmetic, converted to 64 bits. -/
def getMicroseconds (t : Time) : Word :=
  (((1 : BitVec 32) <<< t.exponent) * BitVec.ofNat 32 t.mantissa).signExtend 64

end Time

/-- A pair of timeouts: receive in the low, send in the high half of 32 bits. -/
structure Timeout where
  raw : Word
  deriving DecidableEq

namespace Timeout

def never : Timeout := ⟨0⟩

def getRcv (t : Timeout) : Time := ⟨t.raw.setWidth 16⟩

def getSnd (t : Timeout) : Time := ⟨(t.raw >>> 16).setWidth 16⟩

def isNever (t : Timeout) : Bool := t == never

end Timeout

def defaultTimesliceLength : Time := Time.period 625 4

def defaultTotalQuantum : Time := Time.never

/-! ## Message tags and items -/

/-- The message tag of MR0. -/
structure MsgTag where
  raw : Word
  deriving DecidableEq

namespace MsgTag

def getUntyped (t : MsgTag) : Nat := t.raw.toNat % 64

def getTyped (t : MsgTag) : Nat := t.raw.toNat / 64 % 64

def isPropagated (t : MsgTag) : Bool := t.raw.getLsbD 12

def isError (t : MsgTag) : Bool := t.raw.getLsbD 15

def setPropagated (t : MsgTag) (val : Bool) : MsgTag :=
  ⟨if val then t.raw ||| 0x1000 else t.raw &&& ~~~0x1000⟩

def setError (t : MsgTag) : MsgTag := ⟨t.raw ||| 0x8000⟩

/-- Clear every flag except propagation. -/
def clearReceiveFlags (t : MsgTag) : MsgTag := ⟨t.raw &&& ~~~0xe000⟩

def tag (typed untyped : Nat) (label : Word) : MsgTag :=
  ⟨label <<< 16 ||| BitVec.ofNat 64 (typed % 64 * 64 + untyped % 64)⟩

def errorTag : MsgTag := setError ⟨0⟩

def irqTag : MsgTag := tag 0 0 ((-1 : Word) <<< 4)

def preemptionTag : MsgTag := tag 0 0 ((-3 : Word) <<< 4)

end MsgTag

/-- A typed message item, in a message register or a buffer register. -/
structure MsgItem where
  raw : Word
  deriving DecidableEq

namespace MsgItem

def type (i : MsgItem) : Nat := i.raw.toNat / 2 % 8

def isMapItem (i : MsgItem) : Bool := i.type == 4

def isGrantItem (i : MsgItem) : Bool := i.type == 5

def isStringItem (i : MsgItem) : Bool := i.type < 4

def moreStrings (i : MsgItem) : Bool := i.raw.getLsbD 0

def getStringLength (i : MsgItem) : Nat := i.raw.toNat / 2 ^ 10

def getStringPtrCount (i : MsgItem) : Nat := i.raw.toNat / 16 % 32 + 1

def isStringCompound (i : MsgItem) : Bool := i.raw.getLsbD 9

end MsgItem

/-! ## IPC errors -/

def errIpcTimeout : Word := 1

def errIpcNonExisting : Word := 2

def errIpcCanceled : Word := 3

def errIpcMsgOverflow (off : Word) : Word := 4 + (off <<< 3)

def errIpcXferTimeoutCurrent (off : Word) : Word := 5 + (off <<< 3)

def errIpcXferTimeoutPartner (off : Word) : Word := 6 + (off <<< 3)

def errIpcAborted (off : Word) : Word := 7 + (off <<< 3)

def ipcSndError (err : Word) : Word := err <<< 1

def ipcRcvError (err : Word) : Word := err <<< 1 ||| 1

/-! ## System call errors -/

def enoPrivilege : Word := 1

def einvalidThread : Word := 2

def einvalidSpace : Word := 3

def einvalidParam : Word := 5

def eutcbArea : Word := 6

def ekipArea : Word := 7

def enoMem : Word := 8

/-- The code that `attrib_fpage` has for an invalid fpage. -/
def einvalidFpage : Word := 9

/-! ## Flexpages -/

/-- A flexpage: rights in bits 0-2, size exponent in bits 4-9, base in bits 10-63. -/
structure Fpage where
  raw : Word
  deriving DecidableEq

namespace Fpage

def sizeField (f : Fpage) : Nat := f.raw.toNat / 16 % 64

def getBase (f : Fpage) : Word := f.raw >>> 10 <<< 10

def isNilFpage (f : Fpage) : Bool := f.raw == 0

def isCompleteFpage (f : Fpage) : Bool := f.sizeField == 1 && f.getBase == 0

/-- The base rounded down to the size. The shift count `64 - size` is taken modulo 64. -/
def getAddress (f : Fpage) : Word :=
  f.getBase &&& ~~~(BitVec.allOnes 64 >>> ((64 - f.sizeField) % 64))

def getSize (f : Fpage) : Word := 1 <<< f.sizeField

/-- Both comparisons are on wrapped 64-bit addresses. -/
def isRangeInFpage (f : Fpage) (start stop : Word) : Bool :=
  f.isCompleteFpage || (f.getAddress ≤ start && stop ≤ f.getAddress + f.getSize)

def isAddrInFpage (f : Fpage) (addr : Word) : Bool := f.isRangeInFpage addr (addr + 8)

def isOverlapping (f g : Fpage) : Bool :=
  if g.getAddress < f.getAddress then f.getAddress < g.getAddress + g.getSize
  else g.getAddress < f.getAddress + f.getSize

def complete : Fpage := ⟨0x10⟩

/-- `set` without rights; `~0 >> (54 - size)` is an arithmetic shift of `-1`, so the base is not
masked. -/
def set (base : Word) (size : Nat) : Fpage :=
  ⟨base >>> 10 <<< 10 ||| BitVec.ofNat 64 (size % 64 * 16)⟩

end Fpage

/-- The acceptor of BR0. -/
structure Acceptor where
  raw : Word
  deriving DecidableEq

namespace Acceptor

def acceptStrings (a : Acceptor) : Bool := a.raw.getLsbD 0

def getRcvWindow (a : Acceptor) : Fpage := ⟨a.raw >>> 4 <<< 4⟩

/-- A cleared acceptor with a receive window. -/
def ofRcvWindow (f : Fpage) : Acceptor := ⟨f.raw >>> 4 <<< 4⟩

end Acceptor

/-! ## Preemption flags -/

structure PreemptFlags where
  raw : BitVec 8
  deriving DecidableEq

namespace PreemptFlags

def isDelayed (f : PreemptFlags) : Bool := f.raw.getLsbD 6

def setPending (f : PreemptFlags) : PreemptFlags := ⟨f.raw ||| 0x80⟩

def clearPending (f : PreemptFlags) : PreemptFlags := ⟨f.raw &&& 0x7f⟩

end PreemptFlags

/-! ## Thread states -/

/-- `thread_state_t`, without the two states of the multiprocessor configuration. `zero` is the
word 0 in a TCB that was never initialised; it is no enumerator, but its lowest bit makes it
runnable. -/
inductive ThreadState
  | zero
  | running
  | waitingForever
  | waitingTimeout
  | waitingTunneledPf
  | lockedWaiting
  | lockedRunning
  | lockedRunningIpcDone
  | lockedRunningNested
  | polling
  | halted
  | aborted
  deriving DecidableEq

namespace ThreadState

def isRunnable : ThreadState → Bool
  | zero | running | lockedRunning | lockedRunningIpcDone | lockedRunningNested => true
  | _ => false

def isSending (s : ThreadState) : Bool := s == polling || s == lockedRunning

def isReceiving (s : ThreadState) : Bool :=
  s == waitingForever || s == waitingTimeout || s == lockedWaiting

def isWaiting (s : ThreadState) : Bool := s == waitingForever || s == waitingTimeout

def isHalted (s : ThreadState) : Bool := s == halted

def isRunning (s : ThreadState) : Bool := s == running

def isPolling (s : ThreadState) : Bool := s == polling

def isWaitingForever (s : ThreadState) : Bool := s == waitingForever

end ThreadState

end L4Thread
