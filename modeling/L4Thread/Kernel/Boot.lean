import L4Thread.Kernel.System

/-!
# Boot

Initialisation of kernel memory, the scheduler, the kernel threads and the root servers
(`scheduler_t::init`, `init_kernel_threads`, `create_root_server` and `init_root_servers`). The
state the boot ends in is the initial state of the system: the idle thread is current.
-/

namespace L4Thread

/-- What the kernel interface page configures: the kernel memory, which of the two optional servers
are present, and the entry points. -/
structure BootConfig where
  memStart : Nat
  memSize : Nat
  sigma1 : Bool
  rootServer : Bool
  ip : Word
  sp : Word
  deriving DecidableEq

/-- The state before initialisation: all memory is zero. -/
def KState.zero (cfg : BootConfig) : KState where
  tcb := fun _ => .zero
  utcb := fun _ => .zero
  space := fun _ => .zero
  kmem := Kmem.free ⟨[], 0⟩ cfg.memStart cfg.memSize
  readyList := fun _ => ⟨none, none⟩
  waitList := fun _ => ⟨none, none⟩
  sendList := fun _ => ⟨none, none⟩
  prioQueue := fun _ => none
  maxPrio := -1
  queueTimeslice := 0
  wakeupList := none
  currentTime := 0
  currentTcb := .idle
  sigma0Space := none
  sigma1Space := none
  roottaskSpace := none
  intMask := fun _ => false

def rootUtcbArea : Fpage := Fpage.set rootUtcbStart 18

def rootKipArea : Fpage := Fpage.set rootKipStart kipAreaSizeLog2

def sigma0Tid : ThreadId := .threadid userBase rootVersion

def sigma1Tid : ThreadId := .threadid (userBase + 1) rootVersion

def rootServerTid : ThreadId := .threadid (userBase + 2) rootVersion

/-- The id of the dummy kernel thread. -/
def kernelTid : ThreadId := .threadid systemBase 1

def idleMagic : ThreadId := ⟨0x1d1e1d1e1d1e1d1e⟩

namespace Kernel

open TrapM

/-- `init_kernel_space` takes the kernel space and a dummy TCB from kernel memory. -/
def initKernelSpace : Kernel Unit := do
  let _ ← allocateSpace
  match (← gets (·.kmem)).alloc pageSize with
  | none => trap .hang
  | some (_, kmem) => modKmem fun _ => kmem

/-- `scheduler_t::init` and `initial_switch_to`. -/
def initScheduler : Kernel Unit := do
  createKernelThread .idle .nilthread .idle
  modTcb .idle fun c => { c with myselfGlobal := idleMagic }
  setSpace .idle (some .idle)

/-- `init_kernel_threads`. -/
def initKernelThreads : Kernel Unit := do
  createKernelThread (getTcb kernelTid) kernelTid .kernel
  setState (getTcb kernelTid) .aborted

/-- The end of `create_root_server`, and the registers its caller sets. -/
def startRootServer (p : TcbPtr) (cfg : BootConfig) : Kernel Unit := do
  setState p .running
  setPriority p rootPriority
  enqueueReady p false
  modTcb p fun c => { c with userIp := cfg.ip, userSp := cfg.sp }

/-- `create_root_server`; the space of the server. -/
def createRootServer (destTid schedulerTid pagerTid : ThreadId) (cfg : BootConfig) :
    Kernel SpacePtr := do
  let p := getTcb destTid
  let space ← allocateSpace
  createInactive p destTid schedulerTid
  initSpace space rootUtcbArea rootKipArea
  setSpace p (some space)
  addTcb (some space)
  setUtcbLocation p rootUtcbStart
  activate p .threadReturn pagerTid
  startRootServer p cfg
  pure space

/-- `init_root_servers`. -/
def initRootServers (cfg : BootConfig) : Kernel Unit := do
  let sp ← createRootServer sigma0Tid rootServerTid .nilthread cfg
  modify fun s => { s with sigma0Space := some sp }
  if cfg.sigma1 then
    let sp ← createRootServer sigma1Tid rootServerTid sigma0Tid cfg
    modify fun s => { s with sigma1Space := some sp }
  if cfg.rootServer then
    let sp ← createRootServer rootServerTid rootServerTid sigma0Tid cfg
    modify fun s => { s with roottaskSpace := some sp }

/-- The kernel's initialisation. -/
def boot (cfg : BootConfig) : Kernel Unit := do
  initKernelSpace
  initScheduler
  initKernelThreads
  initRootServers cfg

end Kernel

/-- `s` is the state after the boot with some configuration. -/
def KState.Booted (s : KState) : Prop :=
  ∃ cfg, Kernel.boot cfg (KState.zero cfg) = .ok ((), s)

/-- The states of the runs from boot whose steps all meet `ok`. -/
abbrev Reachable (ok : KState → Event → Prop) : KState → Prop :=
  Run.Reach KState.Booted KState.Step ok

/-! ## A sample system -/

/-- A quarter of a megabyte of kernel memory, `sigma0` and a root server. -/
def BootConfig.sample : BootConfig := ⟨0x100000, 0x40000, false, true, 0, 0⟩

/-- The sample system after its boot. -/
def KState.sample : KState :=
  match Kernel.boot .sample (.zero .sample) with
  | .ok (_, s) => s
  | .error _ => .zero .sample

theorem boot_sample : Kernel.boot .sample (.zero .sample) = .ok ((), .sample) := by
  have hok : (Kernel.boot .sample (.zero .sample)).isOk = true := by decide +kernel
  unfold KState.sample
  cases h : Kernel.boot .sample (.zero .sample) with
  | error e => simp [h, Except.isOk, Except.toBool] at hok
  | ok r => rfl

/-- The id of a thread that does not exist after the boot of the sample system. -/
def sampleTid (n : Nat) : ThreadId := .threadid (userBase + 3 + n) 1

/-- Run the sample system, checking `ok` before every step. -/
def sampleRun (ok : KState → Event → Prop) [∀ s e, Decidable (ok s e)] (es : List Event) :
    Option KState :=
  Run.exec KState.next ok es .sample

/-- What is seen at the end of an admissible sample run is seen in a state of such a run. -/
theorem exists_reach {init : KState → Prop} (hinit : init .sample) (ok : KState → Event → Prop)
    [∀ s e, Decidable (ok s e)] (es : List Event) (P : KState → Bool)
    (h : (sampleRun ok es).any P = true) : ∃ s, Run.Reach init KState.Step ok s ∧ P s = true :=
  Run.Reach.exists_of_exec (.init hinit) h

theorem exists_reachable (ok : KState → Event → Prop) [∀ s e, Decidable (ok s e)]
    (es : List Event) (P : KState → Bool) (h : (sampleRun ok es).any P = true) :
    ∃ s, Reachable ok s ∧ P s = true :=
  exists_reach ⟨.sample, boot_sample⟩ ok es P h

end L4Thread
