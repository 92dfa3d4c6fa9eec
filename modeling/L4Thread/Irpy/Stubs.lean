import L4Thread.Kernel.Boot

/-!
# The stubs of the verification harness

`test.py` runs `SYS_THREAD_CONTROL` with six of the functions it calls replaced. `Helpers` are the
replaced functions, and the definitions under the names of the kernel's functions with the suffix
`With` are these functions over any helpers: `Helpers.kernel` are the kernel's own, and
`Helpers.stubs` those of the harness. A fresh object of the harness is named by its address.
-/

namespace L4Thread

open TrapM Kernel

/-- The functions that the harness replaces. -/
structure Helpers where
  deleteTcb : TcbPtr → Kernel Unit
  init : TcbPtr → ThreadId → Kernel Unit
  activate : TcbPtr → Notify → ThreadId → Kernel Bool
  removeTcb : Option SpacePtr → Kernel Bool
  migrateToSpace : TcbPtr → Option SpacePtr → Kernel Bool
  allocateSpace : Kernel SpacePtr

/-- The kernel's own functions. -/
def Helpers.kernel : Helpers where
  deleteTcb := Kernel.deleteTcb
  init := Kernel.init
  activate p startup pager := do
    Kernel.activate p startup pager
    pure true
  removeTcb := Kernel.removeTcb
  migrateToSpace p space := do
    Kernel.migrateToSpace p space
    pure true
  allocateSpace := Kernel.allocateSpace

/-- `delete_tcb` of the harness. -/
def stubDeleteTcb (p : TcbPtr) : Kernel Unit :=
  modTcb p fun c =>
    { c with myselfGlobal := .nilthread, myselfLocal := .nilthread, state := .aborted }

/-- `init` of the harness. -/
def stubInit (p : TcbPtr) (dest : ThreadId) : Kernel Unit :=
  modTcb p fun c => { c with myselfGlobal := dest, myselfLocal := .nilthread, state := .aborted }

/-- `check_utcb_location` of the harness, on the values of the terms: `>>` is the signed shift, and
the two comparisons are unsigned. -/
def stubCheckUtcbLocation (utcbArea loc : Word) : Bool :=
  let utcbAreaSize := utcbArea.sshiftRight 4 &&& 63
  let utcbAreaBase := utcbArea.sshiftRight 10
  (utcbAreaSize == 1 && utcbAreaBase == 0) ||
    (utcbAreaBase <<< 10 ≤ loc &&
      loc + (1024 : Word) ≤ utcbAreaBase <<< 10 + ((1 : Word) <<< utcbAreaSize))

/-- The functions of the harness; `fresh` is the object that `allocate_space` makes up. -/
def Helpers.stubs (fresh : SpacePtr) : Helpers where
  deleteTcb := stubDeleteTcb
  init := stubInit
  activate _ _ _ := pure true
  removeTcb _ := pure false
  migrateToSpace _ _ := pure false
  allocateSpace := pure fresh

namespace Helpers

variable (H : Helpers)

/-! ## The functions behind the system call -/

def createKernelThreadWith (p : TcbPtr) (dest : ThreadId) (utcb : UtcbPtr) : Kernel Unit := do
  H.init p dest
  modTcb p fun c => { c with utcb := some utcb }
  setPriority p 0

def createInactiveWith (p : TcbPtr) (dest scheduler : ThreadId) : Kernel Unit := do
  H.init p dest
  modTcb p fun c => { c with scheduler }

def threadControlInterruptWith (irqTid handlerTid : ThreadId) : Kernel Bool := do
  let irqTcb := getTcb irqTid
  let irq := irqTid.getIrqno
  if !irqTid.isInterrupt ∨ !isIrqAvailable irq then pure false
  else
    let c ← readTcb irqTcb
    if c.isActivated ∧ c.scheduler = handlerTid then pure true
    else
      if !c.isActivated then
        H.createKernelThreadWith irqTcb irqTid .irq
        setPriority irqTcb maxPrio
        notify irqTcb .irqThread
      else if c.state.isPolling then dequeueSend irqTcb (getTcb c.partner)
      setScheduler irqTcb handlerTid
      if irqTid = handlerTid then
        setIntMask irq false
        setState irqTcb .aborted
      else
        setState irqTcb .halted
        setIntMask irq true
      pure true

def threadDeleteWith (dest : TcbPtr) : Kernel Bool := do
  if dest = (← getCurrentTcb) then failWith einvalidThread
  else
    let d ← readTcb dest
    if d.isExisting then
      H.deleteTcb dest
      if ← H.removeTcb d.space then
        let sp ← derefSpace d.space
        unmapSpace sp
        freeSpace sp
    pure true

def modifyPagerWith (dest : TcbPtr) (a : ThreadControlArgs) : Kernel (Option Word) := do
  if a.pagerTid.isNilthread then pure none
  else if (← readTcb dest).isActivated then
    setPager dest a.pagerTid
    pure none
  else if ← checkUtcbLocation dest a.utcbLocation then
    if ← H.activate dest .threadStartup a.pagerTid then
      fakeWaitForStartup dest a.pagerTid
      pure none
    else pure (some enoMem)
  else pure (some eutcbArea)

def modifySettingsWith (dest : TcbPtr) (a : ThreadControlArgs) : Kernel Bool := do
  match ← H.modifyPagerWith dest a with
  | some err => failWith err
  | none =>
    if !a.schedulerTid.isNilthread then setScheduler dest a.schedulerTid
    if (← readTcb dest).myselfGlobal ≠ a.destTid then setGlobalId dest a.destTid
    pure true

def modifyThreadWith (dest : TcbPtr) (a : ThreadControlArgs) (space : Option SpacePtr) :
    Kernel Bool := do
  if (← readTcb dest).space ≠ space then
    if ← H.migrateToSpace dest space then H.modifySettingsWith dest a
    else failWith enoMem
  else H.modifySettingsWith dest a

def threadModifyWith (dest : TcbPtr) (a : ThreadControlArgs) : Kernel Bool := do
  if ← modifyUtcbLocation dest a.utcbLocation then
    let sp ← readTcb (getTcb a.spaceTid)
    if sp.myselfGlobal ≠ a.spaceTid then failWith einvalidSpace
    else H.modifyThreadWith dest a sp.space
  else failWith eutcbArea

def newThreadSpaceWith (a : ThreadControlArgs) : Kernel (Option SpacePtr) := do
  if a.destTid ≠ a.spaceTid then pure (← readTcb (getTcb a.spaceTid)).space
  else pure (some (← H.allocateSpace))

def createThreadWith (dest : TcbPtr) (a : ThreadControlArgs) : Kernel Unit := do
  H.createInactiveWith dest a.destTid a.schedulerTid
  if a.utcbLocation ≠ noLocation32 then setUtcbLocation dest a.utcbLocation
  let space ← H.newThreadSpaceWith a
  setSpace dest space
  addTcb space
  if !a.pagerTid.isNilthread then
    if ← H.activate dest .threadStartup a.pagerTid then fakeWaitForStartup dest a.pagerTid
    else trap .hang

def threadCreateWith (dest : TcbPtr) (a : ThreadControlArgs) : Kernel Bool := do
  match ← createCheck a with
  | some err => failWith err
  | none =>
    H.createThreadWith dest a
    pure true

/-- `SYS_THREAD_CONTROL` with other helpers. -/
def sysThreadControlWith (a : ThreadControlArgs) : Kernel Bool := do
  if !(← isPrivilegedSpace (← getCurrentSpace)) then failWith enoPrivilege
  else if !a.destTid.isGlobal then failWith einvalidSpace
  else
    let dest := getTcb a.destTid
    if a.destTid.getThreadno < systemBase then
      if ← H.threadControlInterruptWith a.destTid a.pagerTid then pure true
      else failWith einvalidThread
    else if a.destTid.getThreadno < userBase then failWith einvalidThread
    else if a.spaceTid.isNilthread then H.threadDeleteWith dest
    else if (← readTcb dest).isExisting then H.threadModifyWith dest a
    else H.threadCreateWith dest a

end Helpers

/-! ## What the harness looks at -/

/-- The fields of a TCB that the conditions of the harness read. -/
structure TcbFields where
  myselfGlobal : ThreadId
  state : ThreadState
  scheduler : ThreadId
  space : Option SpacePtr
  utcb : Option UtcbPtr
  deriving DecidableEq

def Tcb.fields (c : Tcb) : TcbFields := ⟨c.myselfGlobal, c.state, c.scheduler, c.space, c.utcb⟩

def KState.fields (s : KState) (p : TcbPtr) : TcbFields := (s.tcb p).fields

/-- With the stubs, and some choice of their fresh object, the call has the result and the final
fields that it has with the kernel's functions. -/
def KState.StubsAgree (s : KState) (a : ThreadControlArgs) : Prop :=
  ∀ r t, sysThreadControl a s = .ok (r, t) →
    ∃ fresh t', (Helpers.stubs fresh).sysThreadControlWith a s = .ok (r, t') ∧ t'.fields = t.fields

/-! ## The state of the harness -/

/-- The slot of a thread number of the harness. -/
def harnessTcb (n : Nat) : TcbPtr := getTcb (.threadid n 1)

/-- A space as `func_init_tcb_user` sets it up. -/
structure Space.Prepared (sp : Space) : Prop where
  utcbArea : sp.utcbArea = ⟨18 <<< 4 ||| (1 <<< 32) <<< 10⟩
  threadCount : sp.threadCount = 2

/-- What `func_sys_thread_control_test` sets up before the call. -/
structure KState.Prepared (s : KState) : Prop where
  root : ∃ sp, s.roottaskSpace = some sp ∧ (s.space sp).Prepared
  sigma : ∃ sp, s.sigma0Space = some sp ∧ s.sigma1Space = some sp ∧ (s.space sp).Prepared
  sigma0 : (s.tcb (harnessTcb 64)).space = s.sigma0Space
  sigma1 : (s.tcb (harnessTcb 65)).space = s.sigma1Space
  roottask : (s.tcb (harnessTcb 66)).space = s.roottaskSpace
  current : s.current.space = s.roottaskSpace ∧ s.current.isActivated
  /-- Every user thread has a space of its own. -/
  user : ∀ n, 67 ≤ n → n < 320 → ∃ sp, (s.tcb (harnessTcb n)).space = some sp ∧
    (s.space sp).Prepared ∧ ∀ m, 67 ≤ m → m < 320 → (s.tcb (harnessTcb m)).space = some sp → m = n
  active : ∀ n, 67 ≤ n → n < 164 → (s.tcb (harnessTcb n)).isActivated
  inactive : ∀ n, 164 ≤ n → n < 320 → (s.tcb (harnessTcb n)).isActivated = false

/-- The TCB that the harness sets up in slot `n`. -/
def harnessThread (n : Nat) : Tcb :=
  if n < 64 then .zero
  else if n < 66 then { Tcb.zero with space := some (.heap 64) }
  else if n < 67 then { Tcb.zero with space := some (.heap 66), utcb := some (.user 66) }
  else if n < 320 then
    { Tcb.zero with
      myselfGlobal := .threadid n 1
      space := some (.heap n)
      utcb := if n < 164 then some (.user n) else none }
  else .zero

/-- A state of the harness. -/
def KState.harness : KState :=
  { KState.zero .sample with
    tcb := fun p => match p with
      | .t i => harnessThread i
      | .idle => .zero
    space := fun _ => ⟨⟨0⟩, ⟨18 <<< 4 ||| (1 <<< 32) <<< 10⟩, 2, []⟩
    currentTcb := harnessTcb 66
    sigma0Space := some (.heap 64)
    sigma1Space := some (.heap 64)
    roottaskSpace := some (.heap 66) }

end L4Thread
