import L4Thread.Kernel.Ipc

/-!
# ExchangeRegisters

`SYS_EXCHANGE_REGISTERS` (`src/api/backup/exregs.cc`).
-/

namespace L4Thread

/-- The arguments of `SYS_EXCHANGE_REGISTERS`. -/
structure ExregsArgs where
  destTid : ThreadId
  control : Word
  usp : Word
  uip : Word
  uflags : Word
  uhandle : Word
  pagerTid : ThreadId
  isLocal : Bool
  deriving DecidableEq

/-- What `perform_exregs` leaves in its arguments. -/
structure ExregsValues where
  control : Word
  usp : Word
  uip : Word
  uflags : Word
  pager : ThreadId
  uhandle : Word
  deriving DecidableEq

/-- The results of `SYS_EXCHANGE_REGISTERS`. -/
structure ExregsResult extends ExregsValues where
  result : ThreadId
  deriving DecidableEq

namespace ExregsArgs

def halt (a : ExregsArgs) : Bool := a.control.getLsbD 0

def recv (a : ExregsArgs) : Bool := a.control.getLsbD 1

def send (a : ExregsArgs) : Bool := a.control.getLsbD 2

def sp (a : ExregsArgs) : Bool := a.control.getLsbD 3

def ip (a : ExregsArgs) : Bool := a.control.getLsbD 4

def flags (a : ExregsArgs) : Bool := a.control.getLsbD 5

def uhandleFlag (a : ExregsArgs) : Bool := a.control.getLsbD 6

def pager (a : ExregsArgs) : Bool := a.control.getLsbD 7

def haltFlag (a : ExregsArgs) : Bool := a.control.getLsbD 8

end ExregsArgs

namespace Kernel

open TrapM

/-- `tcb_t::set_user_flags`: no flags for user to change. -/
def setUserFlags (_p : TcbPtr) (_flags : Word) : Kernel Unit := pure ()

/-- Write the selected registers. -/
def exregsWrite (p : TcbPtr) (a : ExregsArgs) : Kernel Unit := do
  if a.sp then modTcb p fun c => { c with userSp := a.usp }
  if a.ip then modTcb p fun c => { c with userIp := a.uip }
  if a.pager then modUtcb p fun u => { u with pager := a.pagerTid }
  if a.uhandleFlag then modUtcb p fun u => { u with userDefinedHandle := a.uhandle }
  if a.flags then setUserFlags p a.uflags

/-- Abort the IPC of `p` and make it return to user level. -/
def exregsAbort (p : TcbPtr) : Kernel Unit := do
  unwind p .abort
  setState p .running
  notify p .ipcError
  enqueueReady p false

/-- The IPC part of `perform_exregs`; the bits of the old control word. -/
def exregsIpc (p : TcbPtr) (a : ExregsArgs) : Kernel Word := do
  let state ← getState p
  if state.isSending then
    if a.send then exregsAbort p
    pure 4
  else if state.isReceiving then
    if a.recv then exregsAbort p
    pure 2
  else pure 0

/-- The halt and resume part of `perform_exregs`; the bits of the old control word. -/
def exregsHalt (p : TcbPtr) (a : ExregsArgs) : Kernel Word := do
  let state ← getState p
  if state.isHalted then
    if a.haltFlag ∧ !a.halt then
      setState p .running
      enqueueReady p false
    pure 1
  else
    if a.haltFlag ∧ a.halt ∧ state.isRunning then
      setState p .halted
      if p = (← getCurrentTcb) then switchToIdle
    pure 0

/-- `perform_exregs`. -/
def performExregs (p : TcbPtr) (a : ExregsArgs) : Kernel ExregsValues := do
  let c ← readTcb p
  let u ← readUtcb p
  exregsWrite p a
  let ipc ← exregsIpc p a
  let halt ← exregsHalt p a
  pure
    { control := ipc ||| halt
      usp := c.userSp, uip := c.userIp, uflags := c.userFlags
      pager := u.pager, uhandle := u.userDefinedHandle }

/-- `SYS_EXCHANGE_REGISTERS`. -/
def sysExchangeRegisters (a : ExregsArgs) : Kernel ExregsResult := do
  let current ← getCurrentTcb
  let p := getTcb a.destTid
  let c ← readTcb p
  if !c.isActivated ∨ c.space ≠ (← getCurrentSpace) ∨
      (c.myselfGlobal ≠ a.destTid ∧ c.myselfLocal ≠ a.destTid) then
    setErrorCode current einvalidThread
    pure ⟨⟨0, 0, 0, 0, .nilthread, 0⟩, .nilthread⟩
  else
    let v ← performExregs p a
    pure ⟨v, if a.isLocal then c.myselfGlobal else c.myselfLocal⟩

end Kernel

end L4Thread
