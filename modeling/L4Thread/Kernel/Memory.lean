import L4Thread.Kernel.State

/-!
# Kernel memory and address spaces

The free list of `kmem_t` (`src/generic/kmemory.cc`), allocation and release of spaces, the
reference count of a space and the allocation of UTCBs (`src/glue/v4-mips64/space.cc`,
`include/glue/v4-mips64/space.h`, `src/api/backup/space.cc`).
-/

namespace L4Thread

/-! ## The free list -/

namespace Kmem

/-- `KMEM_CHUNKSIZE`. -/
def chunkSize : Nat := 1024

/-- The list behind a run of `n` chunks that starts at `curr`, from its `i`-th chunk on. There is
none if the chunks are not consecutive, nor if the run is the end of the list: the code takes the
null pointer behind the last chunk for a failure. -/
def runAfter (curr i n : Nat) : List Nat → Option (List Nat)
  | [] => none
  | tmp :: rest =>
    if i < n then
      if tmp = curr + chunkSize * i then runAfter curr (i + 1) n rest else none
    else some (tmp :: rest)

/-- The first aligned run of `n` chunks, and the list without it. -/
def findRun (aligned : Nat → Bool) (n : Nat) : List Nat → Option (Nat × List Nat)
  | [] => none
  | curr :: rest =>
    match if aligned curr then runAfter curr 1 n rest else none with
    | some rest => some (curr, rest)
    | none => (findRun aligned n rest).map fun r => (r.1, curr :: r.2)

/-- The two allocators differ in their alignment test only. -/
def allocWhere (aligned : Nat → Bool) (size : Nat) (k : Kmem) : Option (Nat × Kmem) :=
  let n := size / chunkSize
  (findRun aligned n k.freeList).map fun r => (r.1, ⟨r.2, k.freeChunks - n⟩)

def alloc (k : Kmem) (size : Nat) : Option (Nat × Kmem) :=
  let size := max size chunkSize
  k.allocWhere (fun curr => curr &&& (size - 1) == 0) size

def allocAligned (k : Kmem) (size alignment mask : Nat) : Option (Nat × Kmem) :=
  let size := max size chunkSize
  k.allocWhere (fun curr => curr &&& mask == alignment &&& mask && curr &&& (size - 1) == 0) size

/-- The chunks of a block. -/
def chunks (address size : Nat) : List Nat :=
  (List.range (size / chunkSize)).map fun i => address + chunkSize * i

/-- The chunks are inserted in front of the first free chunk that is not below the block. -/
def free (k : Kmem) (address size : Nat) : Kmem :=
  let size := max size chunkSize
  ⟨k.freeList.takeWhile (· < address) ++ chunks address size ++
      k.freeList.dropWhile (· < address),
    k.freeChunks + size / chunkSize⟩

end Kmem

/-! ## Spaces -/

/-- `sizeof (space_t)`. -/
def sizeofSpace : Nat := 8192

/-- The size of a UTCB page. -/
def pageSize : Nat := 4096

/-- `MIPS64_ALIGN`: the page colour of the instruction cache. -/
def mips64Align : Nat := 4096

def userAreaEnd : Word := 0xffffffffff

namespace Space

def isUserArea (addr : Word) : Bool := addr ≤ userAreaEnd

theorem isUserArea_iff {addr : Word} : isUserArea addr = true ↔ addr.toNat < 2 ^ 40 := by
  rw [isUserArea, decide_eq_true_eq, BitVec.le_def]
  exact Nat.lt_succ_iff.symm

def isUserAreaFpage (f : Fpage) : Bool :=
  isUserArea f.getAddress && isUserArea (f.getAddress + (f.getSize - 1))

def isInitialized (sp : Space) : Bool := !sp.kipArea.isNilFpage

/-- The check of `tcb_t::check_utcb_location` against the UTCB area of the thread's space. -/
def checkUtcbLocation (sp : Space) (utcbLocation : Word) : Bool :=
  sp.utcbArea.isRangeInFpage utcbLocation (utcbLocation + BitVec.ofNat 64 sizeofUtcb)

/-- The UTCB pages that are mapped inside the UTCB area. -/
def utcbFrames (sp : Space) : List (Nat × Nat) :=
  sp.utcbPages.filter fun m => sp.utcbArea.isAddrInFpage (BitVec.ofNat 64 m.1)

end Space

/-- The page that holds an address. -/
def pageOf (addr : Nat) : Nat := addr / pageSize * pageSize

namespace Kernel

open TrapM

/-- `allocate_space`. Kernel memory is zeroed when it is allocated. -/
def allocateSpace : Kernel SpacePtr := do
  match (← gets (·.kmem)).alloc sizeofSpace with
  | none => trap .hang
  | some (addr, kmem) =>
    modKmem fun _ => kmem
    modSpace (.heap addr) fun _ => .zero
    pure (.heap addr)

/-- `free_space`. -/
def freeSpace (sp : SpacePtr) : Kernel Unit :=
  match sp with
  | .heap addr => modKmem fun k => k.free addr sizeofSpace
  | .idle => pure ()

/-- `space_t::init`, without the page-table entries of the kernel and the kernel interface page. -/
def initSpace (sp : SpacePtr) (utcbArea kipArea : Fpage) : Kernel Unit :=
  modSpace sp fun c => { c with utcbArea, kipArea }

/-- `space_t::free` unmaps everything and frees the frames of the mappings in the UTCB area. -/
def unmapSpace (sp : SpacePtr) : Kernel Unit := do
  let c ← gets (·.space sp)
  modKmem fun k => c.utcbFrames.foldl (fun k m => k.free m.2 pageSize) k
  modSpace sp fun c => { c with utcbPages := [] }

/-- `space_t::add_tcb`. -/
def addTcb (sp : Option SpacePtr) : Kernel Unit := do
  let sp ← derefSpace sp
  modSpace sp fun c => { c with threadCount := c.threadCount + 1 }

/-- `space_t::remove_tcb`: was it the last thread? -/
def removeTcb (sp : Option SpacePtr) : Kernel Bool := do
  let sp ← derefSpace sp
  modSpace sp fun c => { c with threadCount := c.threadCount - 1 }
  let c ← gets (·.space sp)
  pure (c.threadCount == 0)

/-- A zeroed frame holds zeroed UTCBs. -/
def zeroUtcbPage (page : Nat) : Kernel Unit :=
  modify fun s =>
    { s with
      utcb := fun
        | .user a => if page ≤ a ∧ a < page + pageSize then .zero else s.utcb (.user a)
        | u => s.utcb u }

/-- `space_t::allocate_utcb`: the frame of the page that holds the UTCB location is shared by all
UTCBs of that page. -/
def allocateUtcb (sp : Option SpacePtr) (utcbLocation : Word) : Kernel UtcbPtr := do
  let sp ← derefSpace sp
  let c ← gets (·.space sp)
  let loc := utcbLocation.toNat
  match c.utcbPages.lookup (pageOf loc) with
  | some page => pure (.user (page + loc % pageSize))
  | none =>
    match (← gets (·.kmem)).allocAligned pageSize loc mips64Align with
    | none => trap .hang
    | some (page, kmem) =>
      modKmem fun _ => kmem
      zeroUtcbPage page
      modSpace sp fun c => { c with utcbPages := (pageOf loc, page) :: c.utcbPages }
      pure (.user (page + loc % pageSize))

/-! ## Privilege -/

def getCurrentSpace : Kernel (Option SpacePtr) := do
  return (← readTcb (← getCurrentTcb)).space

def isSigma0Space (sp : Option SpacePtr) : Kernel Bool :=
  gets fun s => decide (sp = s.sigma0Space)

/-- Compares with `sigma0_space`, as the source does. -/
def isSigma1Space (sp : Option SpacePtr) : Kernel Bool :=
  gets fun s => decide (sp = s.sigma0Space)

def isRoottaskSpace (sp : Option SpacePtr) : Kernel Bool :=
  gets fun s => decide (sp = s.roottaskSpace)

def isPrivilegedSpace (sp : Option SpacePtr) : Kernel Bool := do
  return (← isRoottaskSpace sp) || (← isSigma0Space sp) || (← isSigma1Space sp)

end Kernel

end L4Thread
