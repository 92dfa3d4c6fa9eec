import L4Thread.Kernel.Thread

/-!
# IPC

`SYS_IPC` (`src/api/backup/ipc.cc`) and `extended_transfer` (`src/api/backup/ipcx.cc`). `SYS_IPC` is
cut at its calls of `switch_to`, and `extended_transfer` at the iterations of its loops: what
follows is left in a frame of the thread and is run by `resume`. The typed items of a message are
copied as message registers; the mapping of pages and the contents of copied strings are not part
of the state.
-/

namespace L4Thread

/-- `COPY_AREA_SIZE`. -/
def copyAreaSize : Word := 0x20000000

/-- `space_t::get_copy_limit`. -/
def getCopyLimit (addr limit : Word) : Word :=
  let stop := addr + limit
  if Space.isUserArea addr then
    if userAreaEnd ≤ stop then userAreaEnd - addr else limit
  else
    let mask := ~~~(copyAreaSize - 1)
    if addr &&& mask ≠ stop &&& mask then ((addr + (copyAreaSize - 1)) &&& mask) - addr
    else limit

namespace Kernel

open TrapM

/-- `return_ipc`. -/
def returnIpc (current : TcbPtr) (tid : ThreadId) : Kernel Unit :=
  modTcb current fun c => { c with ipcResult := tid }

/-! ## Extended transfer -/

/-- `copy_mr`. -/
def copyMr (dst src : TcbPtr) (index : Nat) : Kernel Unit := do
  setMr dst index (← getMr src index)

/-- What an iteration of `extended_transfer` leads to. -/
inductive XferResult
  | more (x : Xfer)
  | done (tag : MsgTag)

/-- `extended_transfer` up to its item loop. -/
def extendedTransfer (src dst : TcbPtr) (msgtag : MsgTag) : Kernel Xfer := do
  let totalMrs := msgtag.getUntyped + msgtag.getTyped
  if ipcNumMr < totalMrs then trap .hang
  else
    setState src .lockedRunning
    setState dst .lockedWaiting
    setPartner src (← readTcb dst).myselfGlobal
    modTcb src fun c => { c with ipcCopy := { c.ipcCopy with copyLength := 0 } }
    let acceptor : Acceptor := ⟨← getBr dst 0⟩
    pure
      { msgtag, brIdx := 1, totalMrs, totalLen := 0, acceptStrings := acceptor.acceptStrings
        srcIdx := msgtag.getUntyped + 1, point := .items }

/-- The label `message_overflow`. -/
def messageOverflow (src dst : TcbPtr) (x : Xfer) : Kernel XferResult := do
  cancelTimeout src
  setErrorCode dst (ipcRcvError (errIpcMsgOverflow x.totalLen))
  setErrorCode src (ipcSndError (errIpcMsgOverflow x.totalLen))
  pure (.done x.msgtag.setError)

/-- The end of the item loop. -/
def transferDone (src : TcbPtr) (x : Xfer) : Kernel XferResult := do
  cancelTimeout src
  modTcb src fun c => { c with hasXferTimeout := false }
  pure (.done x.msgtag)

/-- A string item at the head of the item loop. -/
def stringItem (src dst : TcbPtr) (x : Xfer) (srcItem : MsgItem) : Kernel XferResult := do
  copyMr dst src x.srcIdx
  if !x.acceptStrings ∨ x.totalMrs < x.srcIdx + srcItem.getStringPtrCount then
    messageOverflow src dst x
  else
    let srcAddr ← getMr src (x.srcIdx + 1)
    let dstItem : MsgItem := ⟨← getBr dst x.brIdx⟩
    if ipcNumBr < x.brIdx + dstItem.getStringPtrCount then messageOverflow src dst x
    else
      let dstAddr ← getBr dst (x.brIdx + 1)
      if !dstItem.isStringItem then messageOverflow src dst x
      else
        let c : StringCopy :=
          { srcItem, dstItem, srcAddr, dstAddr
            srcLen := BitVec.ofNat 64 srcItem.getStringLength, srcPtridx := 1
            dstLen := BitVec.ofNat 64 dstItem.getStringLength, dstPtridx := 1 }
        pure (.more { x with acceptStrings := dstItem.moreStrings, point := .string c })

/-- An iteration of the item loop. -/
def transferItem (src dst : TcbPtr) (x : Xfer) : Kernel XferResult := do
  if x.srcIdx < x.totalMrs then
    let srcItem : MsgItem := ⟨← getMr src x.srcIdx⟩
    if srcItem.isMapItem ∨ srcItem.isGrantItem then
      let acceptor : Acceptor := ⟨← getBr dst 0⟩
      if acceptor.getRcvWindow.isNilFpage then messageOverflow src dst x
      else
        copyMr dst src x.srcIdx
        copyMr dst src (x.srcIdx + 1)
        pure (.more { x with srcIdx := x.srcIdx + 2 })
    else if srcItem.isStringItem then stringItem src dst x srcItem
    else messageOverflow src dst x
  else transferDone src x

/-- The copy loop up to the `memcpy` of `ipc_copy`. Between two spaces a copy area would be needed,
which is not implemented. -/
def startCopy (src dst : TcbPtr) (x : Xfer) (c : StringCopy) : Kernel XferResult := do
  copyMr dst src (x.srcIdx + c.srcPtridx)
  let copyLength := if c.dstLen < c.srcLen then c.dstLen else c.srcLen
  let srcLen := getCopyLimit c.srcAddr copyLength
  let dstLen := getCopyLimit c.dstAddr copyLength
  let len := if srcLen < copyLength then srcLen else copyLength
  let len := if dstLen < len then dstLen else len
  if (← readTcb src).space ≠ (← readTcb dst).space then trap .hang
  else
    modTcb src fun t =>
      { t with
        ipcCopy :=
          { t.ipcCopy with
            copyStartSrc := c.srcAddr, copyFault := c.srcAddr, copyStartDst := c.dstAddr } }
    pure (.more { x with point := .copying c copyLength len })

/-- The loop that skips the current receive buffer; the new buffer index, and whether it is in
range. -/
def skipBuffer (dst : TcbPtr) : Nat → Nat → MsgItem → Kernel (Nat × Bool)
  | 0, _, _ => trap .hang
  | fuel + 1, brIdx, dstItem => do
    let brIdx := brIdx + dstItem.getStringPtrCount + 1
    if ipcNumBr ≤ brIdx then pure (brIdx, false)
    else if dstItem.isStringCompound then skipBuffer dst fuel brIdx ⟨← getBr dst brIdx⟩
    else pure (brIdx, true)

/-- The copy loop when the send string has more data. -/
def nextBuffer (src dst : TcbPtr) (x : Xfer) (c : StringCopy) : Kernel XferResult := do
  if c.dstLen ≠ 0 then pure (.more { x with point := .string c })
  else if c.dstPtridx < c.dstItem.getStringPtrCount then
    let dstAddr ← getBr dst (x.brIdx + c.dstPtridx + 1)
    let c :=
      { c with
        dstPtridx := c.dstPtridx + 1, dstAddr
        dstLen := BitVec.ofNat 64 c.dstItem.getStringLength }
    pure (.more { x with point := .string c })
  else if c.dstItem.isStringCompound then
    let brIdx := x.brIdx + c.dstPtridx + 1
    if ipcNumBr < brIdx + 1 then messageOverflow src dst x
    else
      let dstItem : MsgItem := ⟨← getBr dst brIdx⟩
      let dstAddr ← getBr dst (brIdx + 1)
      if ipcNumBr < brIdx + dstItem.getStringPtrCount then messageOverflow src dst x
      else
        let c :=
          { c with
            dstItem, dstAddr, dstPtridx := 1
            dstLen := BitVec.ofNat 64 dstItem.getStringLength }
        pure (.more { x with brIdx, point := .string c })
  else messageOverflow src dst x

/-- The copy loop behind the `memcpy`. -/
def finishCopy (src dst : TcbPtr) (x : Xfer) (c : StringCopy) (copyLength len : Word) :
    Kernel XferResult := do
  modTcb src fun t =>
    { t with ipcCopy := { t.ipcCopy with copyLength := t.ipcCopy.copyLength + len } }
  let x := { x with totalLen := x.totalLen + len }
  if len < copyLength then messageOverflow src dst x
  else
    let c :=
      { c with
        srcLen := c.srcLen - len, dstLen := c.dstLen - len
        srcAddr := c.srcAddr + len, dstAddr := c.dstAddr + len }
    if c.srcLen ≠ 0 then nextBuffer src dst x c
    else if c.srcPtridx < c.srcItem.getStringPtrCount then
      let srcAddr ← getMr src (x.srcIdx + c.srcPtridx + 1)
      nextBuffer src dst x
        { c with
          srcPtridx := c.srcPtridx + 1, srcAddr
          srcLen := BitVec.ofNat 64 c.srcItem.getStringLength }
    else if c.srcItem.isStringCompound then
      let x := { x with srcIdx := x.srcIdx + c.srcPtridx + 1 }
      if x.totalMrs < x.srcIdx + 1 then messageOverflow src dst x
      else
        let srcItem : MsgItem := ⟨← getMr src x.srcIdx⟩
        let srcAddr ← getMr src (x.srcIdx + 1)
        if x.totalMrs < x.srcIdx + srcItem.getStringPtrCount then messageOverflow src dst x
        else
          nextBuffer src dst x
            { c with
              srcItem, srcAddr, srcPtridx := 1
              srcLen := BitVec.ofNat 64 srcItem.getStringLength }
    else
      let (brIdx, more) ← skipBuffer dst ipcNumBr x.brIdx c.dstItem
      let x := { x with srcIdx := x.srcIdx + c.srcPtridx + 1, brIdx, point := .items }
      pure (.more { x with acceptStrings := x.acceptStrings && more })

/-- An iteration of the loop `extended_transfer` stands at. -/
def transferStep (src dst : TcbPtr) (x : Xfer) : Kernel XferResult :=
  match x.point with
  | .items => transferItem src dst x
  | .string c => startCopy src dst x c
  | .copying c copyLength len => finishCopy src dst x c copyLength len

/-! ## The receive phase -/

/-- The thread a receive looks at first; `none` in the outer option for an invalid specifier. -/
def receivePartner (current : TcbPtr) (fromTid : ThreadId) : Kernel (Option (Option TcbPtr)) := do
  let c ← readTcb current
  if fromTid.isAnythread ∨ fromTid.isAnylocalthread then pure (some c.sendHead)
  else
    let f ← readTcb (getTcb fromTid)
    if f.myselfGlobal ≠ fromTid ∧ (f.space ≠ c.space ∨ f.myselfLocal ≠ fromTid) then pure none
    else pure (some (some (getTcb fromTid)))

/-- Is `f` polling on `current`? -/
def pollsOn (c f : Tcb) : Bool :=
  f.state.isPolling && (f.partner == c.myselfGlobal || f.partner == c.myselfLocal)

/-- A receive whose partner is not ready. -/
def receiveBlocking (current : TcbPtr) (toTcb : Option TcbPtr) (fromTid : ThreadId)
    (timeout : Timeout) : Kernel Unit := do
  let rcv := timeout.getRcv
  if !rcv.isNever then setErrorCode current (ipcRcvError errIpcTimeout)
  if rcv.isZero then
    setTag current .errorTag
    setState current .running
    returnIpc current .nilthread
    match toTcb with
    | some toTcb =>
      enqueueReady current false
      switchTo toTcb
    | none => pure ()
  else
    if !rcv.isNever then
      setTimeout current rcv
      setState current .waitingTimeout
    else setState current .waitingForever
    setPartner current fromTid
    pushFrame current .recvBlocked
    switchTo (toTcb.getD .idle)

/-- A receive from `fromTcb`, which polls on `current`. -/
def receiveFrom (current : TcbPtr) (toTcb : Option TcbPtr) (fromTcb : TcbPtr) : Kernel Unit := do
  setState fromTcb .lockedRunning
  setState current .lockedWaiting
  pushFrame current .received
  match toTcb with
  | some toTcb =>
    if ← checkDispatchThread fromTcb toTcb then
      cancelTimeout fromTcb
      enqueueReady fromTcb false
      switchTo toTcb
    else
      setState toTcb .running
      enqueueReady toTcb false
      switchTo fromTcb
  | none => switchTo fromTcb

/-- The receive phase of `SYS_IPC`; `toTcb` is the receiver of the send phase, if there was one. -/
def ipcReceive (current : TcbPtr) (toTcb : Option TcbPtr) (toTid fromTid : ThreadId)
    (timeout : Timeout) : Kernel Unit := do
  if fromTid = toTid ∧ timeout.isNever then
    setPartner current fromTid
    setState current .waitingForever
    pushFrame current .received
    switchTo (← ofLinks toTcb)
  else
    match ← receivePartner current fromTid with
    | none =>
      setTag current .errorTag
      setErrorCode current (ipcRcvError errIpcNonExisting)
      returnIpc current .nilthread
    | some none => receiveBlocking current toTcb fromTid timeout
    | some (some fromTcb) =>
      if pollsOn (← readTcb current) (← readTcb fromTcb) then receiveFrom current toTcb fromTcb
      else receiveBlocking current toTcb fromTid timeout

/-! ## The send phase -/

/-- A send without a receive phase hands over to the receiver. -/
def sendOnly (current toTcb : TcbPtr) : Kernel Unit := do
  if (← readTcb toTcb).savedPartner.isNilthread then setState toTcb .running
  else setState toTcb .lockedRunningIpcDone
  setState current .running
  if ← checkDispatchThread current toTcb then
    enqueueReady current false
    switchTo toTcb
  else
    cancelTimeout toTcb
    enqueueReady toTcb false

/-- `SYS_IPC` behind the send phase. -/
def sendFinished (current : TcbPtr) (toTcb : Option TcbPtr) (toTid fromTid : ThreadId)
    (timeout : Timeout) : Kernel Unit := do
  if fromTid.isNilthread then
    returnIpc current fromTid
    match toTcb with
    | some toTcb => sendOnly current toTcb
    | none => pure ()
  else ipcReceive current toTcb toTid fromTid timeout

/-- `SYS_IPC` behind a failed transfer. -/
def transferFailed (current toTcb : TcbPtr) (toTid : ThreadId) : Kernel Unit := do
  setTag current (← getTag toTcb)
  setState toTcb .running
  enqueueReady toTcb false
  returnIpc current toTid

/-- `transfer_message` up to the typed items, with the partner told who the message is from. -/
def ipcTransfer (current toTcb : TcbPtr) (toTid fromTid : ThreadId) (timeout : Timeout)
    (senderId : ThreadId) : Kernel Unit := do
  setPartner toTcb senderId
  let tag := (← getTag current).clearReceiveFlags
  if tag.isPropagated then
    let sender := (← readTcb current).myselfGlobal
    modUtcb toTcb fun u => { u with virtualSender := sender }
  if tag.getUntyped ≠ 0 then copyMrs current toTcb 1 tag.getUntyped
  if tag.getTyped = 0 then
    setTag toTcb tag
    sendFinished current (some toTcb) toTid fromTid timeout
  else
    let x ← extendedTransfer current toTcb tag
    pushFrame current (.transfer x toTid fromTid timeout)

/-- The id the receiver sees. Propagation is only allowed within an address space. -/
def ipcSenderId (current toTcb : TcbPtr) : Kernel ThreadId := do
  let c ← readTcb current
  let tag ← getTag current
  if tag.isPropagated then
    let virt := (← readUtcb current).virtualSender
    let v ← readTcb (getTcb virt)
    if virt = v.myselfGlobal ∧ (c.space = v.space ∨ c.space = (← readTcb toTcb).space) then pure virt
    else
      setTag current (tag.setPropagated false)
      pure c.myselfGlobal
  else pure c.myselfGlobal

/-- Does `d` wait for a message of `c`, which sends as `senderId`? -/
def waitsFor (c d : Tcb) (senderId : ThreadId) : Bool :=
  d.state.isWaiting && (d.partner == senderId || d.partner.isAnythread ||
    (d.partner.isAnylocalthread && d.space == c.space))

/-- A send whose receiver is not ready. -/
def sendBlocking (current toTcb : TcbPtr) (toTid fromTid : ThreadId) (timeout : Timeout)
    (senderId : ThreadId) : Kernel Unit := do
  let snd := timeout.getSnd
  if snd.isZero then
    setState current .running
    setTag current .errorTag
    setErrorCode current (ipcSndError errIpcTimeout)
    returnIpc current .nilthread
  else
    if !snd.isNever then setTimeout current snd
    enqueueSend current toTcb
    setPartner current toTid
    setState current .polling
    pushFrame current (.sendBlocked toTid fromTid timeout senderId)
    switchToIdle

/-- `SYS_IPC`. -/
def sysIpc (toTid fromTid : ThreadId) (timeout : Timeout) : Kernel Unit := do
  let current ← getCurrentTcb
  if toTid.isNilthread then sendFinished current none toTid fromTid timeout
  else
    let toTcb := getTcb toTid
    if (← readTcb toTcb).myselfGlobal ≠ toTid then
      setErrorCode current (ipcSndError errIpcNonExisting)
      setTag current .errorTag
      returnIpc current .nilthread
    else
      let senderId ← ipcSenderId current toTcb
      if waitsFor (← readTcb current) (← readTcb toTcb) senderId then
        ipcTransfer current toTcb toTid fromTid timeout senderId
      else sendBlocking current toTcb toTid fromTid timeout senderId

/-! ## Continuations -/

/-- `SYS_IPC` behind the `switch_to_idle` of the send phase. -/
def resumeSend (current : TcbPtr) (toTid fromTid : ThreadId) (timeout : Timeout)
    (senderId : ThreadId) : Kernel Unit := do
  cancelTimeout current
  dequeueSend current (getTcb toTid)
  ipcTransfer current (getTcb toTid) toTid fromTid timeout senderId

/-- `SYS_IPC` inside `extended_transfer`. -/
def resumeTransfer (current : TcbPtr) (x : Xfer) (toTid fromTid : ThreadId) (timeout : Timeout) :
    Kernel Unit := do
  let toTcb := getTcb toTid
  match ← transferStep current toTcb x with
  | .more x => pushFrame current (.transfer x toTid fromTid timeout)
  | .done tag =>
    setTag toTcb tag
    if tag.isError then transferFailed current toTcb toTid
    else sendFinished current (some toTcb) toTid fromTid timeout

/-- `SYS_IPC` at the end of its receive phase. -/
def resumeReceived (current : TcbPtr) : Kernel Unit := do
  setState current .running
  returnIpc current (← readTcb current).partner

def resumeRecvBlocked (current : TcbPtr) : Kernel Unit := do
  cancelTimeout current
  resumeReceived current

end Kernel

end L4Thread
