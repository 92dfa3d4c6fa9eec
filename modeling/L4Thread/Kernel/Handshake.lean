import L4Thread.Api.Types

/-!
# IPC between two processors

`SYS_IPC` of a multiprocessor kernel between a sender on one processor and a receiver on another one,
and the handlers of their messages (`src/api/backup/ipc.cc`). A step is a statement that other
processors can observe. A processor handles its messages when it is not inside `SYS_IPC`, in the
order of its mailbox, a ring buffer (`include/api/v4/smp.h`). No thread migrates, there are no
timeouts, and the transfer of a message does not fail.
-/

namespace L4Thread.Handshake

/-- Whom a receiver waits for. -/
inductive FromSpec
  | sender
  | anythread
  | anylocalthread
  deriving DecidableEq

/-- The next statement of the sender. -/
inductive SenderPc
  /-- At user level. -/
  | user
  | setPartner
  | setPolling
  /-- `to_tcb->get_state ().is_waiting ()`. -/
  | readState
  /-- `to_tcb->get_partner ()`. -/
  | readPartner
  /-- `enqueue_send`. -/
  | enqueue
  /-- Behind the `switch_to_idle` of a sender that is in the send queue. -/
  | blocked
  | dequeue
  /-- The request of `do_xcpu_send`. -/
  | request
  /-- Behind the `switch_to_idle` of a sender that has sent `do_xcpu_send`. -/
  | requested
  /-- `xcpu_status != 0`. -/
  | readStatus
  /-- `to_tcb->set_partner (sender_id)`. -/
  | tellPartner
  /-- `transfer_message`. -/
  | transfer
  /-- The request of `do_xcpu_send_done`. -/
  | done
  | setRunning
  deriving DecidableEq

/-- The next statement of the receiver. -/
inductive ReceiverPc
  /-- At user level. -/
  | user
  | setPartner (spec : FromSpec)
  | setWaiting (spec : FromSpec)
  /-- `from_tcb`: the thread that is named, or the head of the send queue. -/
  | findSender (spec : FromSpec)
  /-- `from_tcb->get_state ().is_polling ()`. -/
  | readState (spec : FromSpec)
  /-- `from_tcb->get_partner ()`. -/
  | readPartner (spec : FromSpec)
  /-- The state, then the partner of a blocking receive. -/
  | blockState (spec : FromSpec)
  | blockPartner (spec : FromSpec)
  | lock
  /-- The request of `do_xcpu_receive`. -/
  | request
  /-- Behind the `switch_to` of the receive phase. -/
  | waiting
  deriving DecidableEq

/-- A message to the processor of the sender. -/
inductive SenderMsg
  | receive
  | sendReply (status : Word)
  deriving DecidableEq

/-- A message to the processor of the receiver. -/
inductive ReceiverMsg
  | send
  | sendDone
  deriving DecidableEq

/-- The two TCBs, the places of their threads in `SYS_IPC` and the messages in flight. -/
structure State where
  sPc : SenderPc
  sState : ThreadState
  /-- The partner of the sender is the receiver. -/
  sPartner : Bool
  /-- `xcpu_status` of the sender. -/
  status : Word
  /-- The sender is in the send queue of the receiver. -/
  queued : Bool
  rPc : ReceiverPc
  rState : ThreadState
  /-- The partner of the receiver, if it is the sender or one of the two wildcards. -/
  rPartner : Option FromSpec
  toSender : List SenderMsg
  toReceiver : List ReceiverMsg
  /-- A handler was `UNIMPLEMENTED`. -/
  fault : Bool
  deriving DecidableEq

/-- `sameSpace`: the two threads share a space. -/
def FromSpec.accepts (sameSpace : Bool) : FromSpec → Bool
  | sender | anythread => true
  | anylocalthread => sameSpace

namespace State

variable (sameSpace : Bool) (s : State)

/-- A statement of the sender. -/
def senderStep : Option State :=
  match s.sPc with
  | .user => none
  | .setPartner => some { s with sPartner := true, sPc := .setPolling }
  | .setPolling => some { s with sState := .polling, sPc := .readState }
  | .readState => some { s with sPc := if s.rState.isWaiting then .readPartner else .enqueue }
  | .readPartner =>
    some { s with sPc := if s.rPartner.any (·.accepts sameSpace) then .request else .enqueue }
  | .enqueue => some { s with queued := true, sPartner := true, sState := .polling, sPc := .blocked }
  | .blocked => if s.sState.isRunnable then some { s with sPc := .dequeue } else none
  | .dequeue => some { s with queued := false, sPc := .tellPartner }
  | .request => some { s with toReceiver := s.toReceiver ++ [.send], sPc := .requested }
  | .requested => if s.sState.isRunnable then some { s with sPc := .readStatus } else none
  | .readStatus => some { s with sPc := if s.status ≠ 0 then .setPartner else .tellPartner }
  | .tellPartner => some { s with rPartner := some .sender, sPc := .transfer }
  | .transfer => some { s with sPc := .done }
  | .done => some { s with toReceiver := s.toReceiver ++ [.sendDone], sPc := .setRunning }
  | .setRunning => some { s with sState := .running, sPc := .user }

/-- A statement of the receiver. -/
def receiverStep : Option State :=
  match s.rPc with
  | .user => none
  | .setPartner spec => some { s with rPartner := some spec, rPc := .setWaiting spec }
  | .setWaiting spec => some { s with rState := .waitingForever, rPc := .findSender spec }
  | .findSender spec =>
    some { s with
      rPc := if spec = .sender ∨ s.queued then .readState spec else .blockState spec }
  | .readState spec =>
    some { s with rPc := if s.sState.isPolling then .readPartner spec else .blockState spec }
  | .readPartner spec => some { s with rPc := if s.sPartner then .lock else .blockState spec }
  | .blockState spec => some { s with rState := .waitingForever, rPc := .blockPartner spec }
  | .blockPartner spec => some { s with rPartner := some spec, rPc := .waiting }
  | .lock => some { s with rState := .lockedWaiting, rPc := .request }
  | .request => some { s with toSender := s.toSender ++ [.receive], rPc := .waiting }
  | .waiting => if s.rState.isRunnable then some { s with rState := .running, rPc := .user } else none

/-- `do_xcpu_receive`. -/
def doXcpuReceive : State :=
  if s.sState.isPolling ∧ s.sPartner ∨ s.rState = .lockedWaiting ∧ s.rPartner = some .sender then
    { s with sState := .lockedRunning }
  else { s with fault := true }

/-- `do_xcpu_send_reply`. -/
def doXcpuSendReply (status : Word) : State := { s with status, sState := .lockedRunning }

/-- `do_xcpu_send`. -/
def doXcpuSend : State :=
  if s.rState.isWaiting ∧ (s.rPartner = some .sender ∨ s.rPartner = some .anythread) then
    { s with
      rState := .lockedWaiting, rPartner := some .sender
      toSender := s.toSender ++ [.sendReply 0] }
  else if s.rState = .lockedWaiting ∧ s.rPartner = some .sender then s
  else { s with toSender := s.toSender ++ [.sendReply 1] }

/-- `do_xcpu_send_done`. -/
def doXcpuSendDone : State :=
  if s.rState = .lockedWaiting ∧ s.rPartner = some .sender then { s with rState := .running }
  else { s with fault := true }

/-- The sender is not inside `SYS_IPC`, so that its processor handles messages. -/
def senderOpen : Bool := s.sPc == .user || s.sPc == .blocked || s.sPc == .requested

def receiverOpen : Bool := s.rPc == .user || s.rPc == .waiting

/-- The processor of the sender handles its next message. -/
def handleSender : Option State :=
  match s.toSender with
  | [] => none
  | m :: rest =>
    if s.senderOpen then
      let s := { s with toSender := rest }
      match m with
      | .receive => some s.doXcpuReceive
      | .sendReply status => some (s.doXcpuSendReply status)
    else none

/-- The processor of the receiver handles its next message. -/
def handleReceiver : Option State :=
  match s.toReceiver with
  | [] => none
  | m :: rest =>
    if s.receiverOpen then
      let s := { s with toReceiver := rest }
      match m with
      | .send => some s.doXcpuSend
      | .sendDone => some s.doXcpuSendDone
    else none

end State

inductive Event
  /-- The sender calls `SYS_IPC`. -/
  | send
  /-- The receiver calls `SYS_IPC`. -/
  | receive (spec : FromSpec)
  | senderStep
  | receiverStep
  | handleSender
  | handleReceiver
  deriving DecidableEq

/-- One step; there is none after a handler that is not implemented. -/
def State.next (sameSpace : Bool) (s : State) (e : Event) : Option State :=
  if s.fault then none
  else
    match e with
    | .send => if s.sPc = .user then some { s with sPc := .setPartner } else none
    | .receive spec => if s.rPc = .user then some { s with rPc := .setPartner spec } else none
    | .senderStep => s.senderStep sameSpace
    | .receiverStep => s.receiverStep
    | .handleSender => s.handleSender
    | .handleReceiver => s.handleReceiver

/-- Both threads are at user level, and nothing is in flight. What earlier calls left in the two
partners and in `xcpu_status` is arbitrary. -/
structure State.Init (s : State) : Prop where
  sPc : s.sPc = .user
  sState : s.sState = .running
  queued : s.queued = false
  rPc : s.rPc = .user
  rState : s.rState = .running
  toSender : s.toSender = []
  toReceiver : s.toReceiver = []
  fault : s.fault = false

end L4Thread.Handshake
