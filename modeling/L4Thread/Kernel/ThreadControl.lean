import L4Thread.Kernel.Interrupt

/-!
# Thread and space control

The privileged system calls `SYS_THREAD_CONTROL` (`src/api/v4/thread.cc`) and `SYS_SPACE_CONTROL`
(`src/api/backup/space.cc`). The results 1 and 0 of the calls are `true` and `false`.
-/

namespace L4Thread

/-- The arguments of `SYS_THREAD_CONTROL`. -/
structure ThreadControlArgs where
  destTid : ThreadId
  spaceTid : ThreadId
  schedulerTid : ThreadId
  pagerTid : ThreadId
  utcbLocation : Word
  deriving DecidableEq

/-- The arguments of `SYS_SPACE_CONTROL`; the redirector is not used. -/
structure SpaceControlArgs where
  spaceTid : ThreadId
  control : Word
  kipArea : Fpage
  utcbArea : Fpage
  deriving DecidableEq

/-- `~0UL`, the unchanged location of a modification. -/
def noLocation : Word := BitVec.allOnes 64

/-- `~0U`: the unset location of a creation is compared with a 32-bit constant. -/
def noLocation32 : Word := 0xffffffff

namespace Kernel

open TrapM

/-- Set the error code of the caller and return 0. -/
def failWith (err : Word) : Kernel Bool := do
  setErrorCode (← getCurrentTcb) err
  pure false

/-- Deletion of the thread in `dest`. -/
def threadDelete (dest : TcbPtr) : Kernel Bool := do
  if dest = (← getCurrentTcb) then failWith einvalidThread
  else
    let d ← readTcb dest
    if d.isExisting then
      deleteTcb dest
      if ← removeTcb d.space then
        let sp ← derefSpace d.space
        unmapSpace sp
        freeSpace sp
    pure true

/-- Activate the thread in `dest` and let it wait for the start message of its pager. -/
def startThread (dest : TcbPtr) (pager : ThreadId) : Kernel Unit := do
  activate dest .threadStartup pager
  fakeWaitForStartup dest pager

/-- The pager argument of a modification; `none` if it was accepted. -/
def modifyPager (dest : TcbPtr) (a : ThreadControlArgs) : Kernel (Option Word) := do
  if a.pagerTid.isNilthread then pure none
  else if (← readTcb dest).isActivated then
    setPager dest a.pagerTid
    pure none
  else if ← checkUtcbLocation dest a.utcbLocation then
    startThread dest a.pagerTid
    pure none
  else pure (some eutcbArea)

/-- The UTCB location of a modification: `true` if it was accepted. -/
def modifyUtcbLocation (dest : TcbPtr) (utcbLocation : Word) : Kernel Bool := do
  if utcbLocation = noLocation then pure true
  else if (← readTcb dest).isActivated then pure false
  else if ← checkUtcbLocation dest utcbLocation then
    setUtcbLocation dest utcbLocation
    pure true
  else pure false

/-- The pager, scheduler and id of a modification. -/
def modifySettings (dest : TcbPtr) (a : ThreadControlArgs) : Kernel Bool := do
  match ← modifyPager dest a with
  | some err => failWith err
  | none =>
    if !a.schedulerTid.isNilthread then setScheduler dest a.schedulerTid
    if (← readTcb dest).myselfGlobal ≠ a.destTid then setGlobalId dest a.destTid
    pure true

/-- The modification of a thread that is to be in `space`. -/
def modifyThread (dest : TcbPtr) (a : ThreadControlArgs) (space : Option SpacePtr) :
    Kernel Bool := do
  if (← readTcb dest).space ≠ space then migrateToSpace dest space
  modifySettings dest a

/-- Modification of the existing thread in `dest`. -/
def threadModify (dest : TcbPtr) (a : ThreadControlArgs) : Kernel Bool := do
  if ← modifyUtcbLocation dest a.utcbLocation then
    let sp ← readTcb (getTcb a.spaceTid)
    if sp.myselfGlobal ≠ a.spaceTid then failWith einvalidSpace
    else modifyThread dest a sp.space
  else failWith eutcbArea

/-- The checks of a creation: the error code of the first one that fails. -/
def createCheck (a : ThreadControlArgs) : Kernel (Option Word) := do
  let sp ← readTcb (getTcb a.spaceTid)
  if a.schedulerTid.isNilthread then pure (some einvalidThread)
  else if a.destTid ≠ a.spaceTid ∧ sp.myselfGlobal ≠ a.spaceTid then pure (some einvalidSpace)
  else if a.pagerTid.isNilthread then pure none
  else if a.destTid = a.spaceTid then pure (some einvalidSpace)
  else if !(← readSpace sp.space).isInitialized then pure (some einvalidSpace)
  else if a.utcbLocation = noLocation32 then pure (some eutcbArea)
  else if ← checkUtcbLocation (getTcb a.spaceTid) a.utcbLocation then pure none
  else pure (some eutcbArea)

/-- The space of a new thread: a new space if the thread names itself. -/
def newThreadSpace (a : ThreadControlArgs) : Kernel (Option SpacePtr) := do
  if a.destTid ≠ a.spaceTid then pure (← readTcb (getTcb a.spaceTid)).space
  else pure (some (← allocateSpace))

/-- Creation of a thread in `dest`, the checks passed. -/
def createThread (dest : TcbPtr) (a : ThreadControlArgs) : Kernel Unit := do
  createInactive dest a.destTid a.schedulerTid
  if a.utcbLocation ≠ noLocation32 then setUtcbLocation dest a.utcbLocation
  let space ← newThreadSpace a
  setSpace dest space
  addTcb space
  if !a.pagerTid.isNilthread then startThread dest a.pagerTid

/-- Creation of a thread in `dest`. -/
def threadCreate (dest : TcbPtr) (a : ThreadControlArgs) : Kernel Bool := do
  match ← createCheck a with
  | some err => failWith err
  | none =>
    createThread dest a
    pure true

/-- `SYS_THREAD_CONTROL`. -/
def sysThreadControl (a : ThreadControlArgs) : Kernel Bool := do
  if !(← isPrivilegedSpace (← getCurrentSpace)) then failWith enoPrivilege
  else if !a.destTid.isGlobal then failWith einvalidSpace
  else
    let dest := getTcb a.destTid
    if a.destTid.getThreadno < systemBase then
      if ← threadControlInterrupt a.destTid a.pagerTid then pure true
      else failWith einvalidThread
    else if a.destTid.getThreadno < userBase then failWith einvalidThread
    else if a.spaceTid.isNilthread then threadDelete dest
    else if (← readTcb dest).isExisting then threadModify dest a
    else threadCreate dest a

/-- `SYS_SPACE_CONTROL`; the old control word is always 0. -/
def sysSpaceControl (a : SpaceControlArgs) : Kernel Bool := do
  if !(← isPrivilegedSpace (← getCurrentSpace)) then failWith enoPrivilege
  else if !a.spaceTid.isGlobal then failWith einvalidSpace
  else
    let c ← readTcb (getTcb a.spaceTid)
    if c.myselfGlobal ≠ a.spaceTid then failWith einvalidSpace
    else
      let ptr ← derefSpace c.space
      let sp ← gets (·.space ptr)
      if sp.isInitialized then pure true
      else if a.utcbArea.getSize < BitVec.ofNat 64 utcbMinimalSize ∨
          !Space.isUserAreaFpage a.utcbArea then failWith eutcbArea
      else if a.kipArea.getSize < (1 : Word) <<< kipAreaSizeLog2 ∨
          !Space.isUserAreaFpage a.kipArea ∨ a.kipArea.isOverlapping a.utcbArea then
        failWith ekipArea
      else
        initSpace ptr a.utcbArea a.kipArea
        pure true

end Kernel

end L4Thread
