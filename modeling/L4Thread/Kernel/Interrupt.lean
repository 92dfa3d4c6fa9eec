import L4Thread.Kernel.Ipc

/-!
# Interrupts

Delivery of interrupts by IPC, the interrupt threads and their attachment to handlers
(`src/api/backup/interrupt.cc`, `include/glue/v4-mips64/intctrl.h`).
-/

namespace L4Thread

/-- `intctrl_t::is_irq_available`. -/
def isIrqAvailable (irq : Nat) : Bool := irq < 7 && 2 ≤ irq

namespace Kernel

open TrapM

/-- Enable or disable an interrupt line; no line reports a pending interrupt. -/
def setIntMask (irq : Nat) (enabled : Bool) : Kernel Unit :=
  modify fun s => { s with intMask := Function.update s.intMask irq enabled }

/-- `thread_control_interrupt`. -/
def threadControlInterrupt (irqTid handlerTid : ThreadId) : Kernel Bool := do
  let irqTcb := getTcb irqTid
  let irq := irqTid.getIrqno
  if !irqTid.isInterrupt ∨ !isIrqAvailable irq then pure false
  else
    let c ← readTcb irqTcb
    if c.isActivated ∧ c.scheduler = handlerTid then pure true
    else
      if !c.isActivated then
        createKernelThread irqTcb irqTid .irq
        setPriority irqTcb maxPrio
        notify irqTcb .irqThread
      else if c.state.isPolling then dequeueSend irqTcb (getTcb c.partner)
      setScheduler irqTcb handlerTid
      if irqTid = handlerTid then
        setIntMask irq false
        setState irqTcb .aborted
      else
        setState irqTcb .halted
        setIntMask irq true
      pure true

/-- `handle_interrupt`, behind the masking of the line. -/
def handleInterrupt (irq : Nat) : Kernel Unit := do
  setIntMask irq false
  let current ← getCurrentTcb
  let irqTid := ThreadId.irqthread irq
  let irqTcb := getTcb irqTid
  let c ← readTcb irqTcb
  if c.state = .aborted then pure ()
  else
    let handlerTid := c.scheduler
    let handlerTcb := getTcb handlerTid
    let h ← readTcb handlerTcb
    if h.myselfGlobal ≠ handlerTid then setState irqTcb .aborted
    else if h.state.isWaiting ∧ (h.partner = irqTid ∨ h.partner.isAnythread) then
      setPartner irqTcb handlerTid
      setState irqTcb .waitingForever
      setTag handlerTcb .irqTag
      setPartner handlerTcb irqTid
      if current = .idle then switchTo handlerTcb
      else if ← checkDispatchThread current handlerTcb then
        preemptThread current handlerTcb
        switchTo handlerTcb
      else
        setState handlerTcb .running
        enqueueReady handlerTcb false
    else
      setTag irqTcb .irqTag
      setPartner irqTcb handlerTid
      setState irqTcb .polling
      enqueueSend irqTcb handlerTcb

/-- `irq_thread` once it was re-activated by a message to it. -/
def irqActivated (current : TcbPtr) : Kernel Unit := do
  setState current .halted
  setIntMask (← readTcb current).myselfGlobal.getIrqno true
  pushFrame current .irqIdle
  switchToIdle

/-- The loop of `irq_thread`. A thread in the send queue of its handler could not deliver the
interrupt when it happened. -/
def irqThread (current : TcbPtr) : Kernel Unit := do
  let c ← readTcb current
  let handlerTcb := getTcb c.scheduler
  if c.queueState.send then
    dequeueSend current handlerTcb
    setTag handlerTcb .irqTag
    setPartner handlerTcb c.myselfGlobal
    setPartner current c.scheduler
    setState current .waitingForever
    pushFrame current .irqSent
    switchTo handlerTcb
  else irqActivated current

end Kernel

end L4Thread
