import Mathlib.Algebra.Order.Ring.Nat
import Mathlib.Logic.Function.Basic
import Mathlib.Tactic.Common

/-!
# Buffers of the mapping database

`mapping_alloc.cc`. Addresses are numbers, as no chunk reaches to the end of the address space, and a
null pointer is `none`. The management structures of the frames, the link words of the free buffers
and the chunks that `kmem` has handed out are maps; the frame that a call of `kmem.alloc` returns is
an argument.
-/

namespace L4Thread

/-- `MDB_ALLOC_CHUNKSZ`. -/
def mdbAllocChunksz : Nat := 4096

/-- `sizeof (mdb_mng_t)`. -/
def mdbMngSize : Nat := 40

/-- The sizes of `mapnode_t`, `dualnode_t` and `rootnode_t`. -/
def mapnodeSize : Nat := 24

def dualnodeSize : Nat := 16

def rootnodeSize : Nat := 8

/-- `mdb_mng_t`: at the start of a frame. `bl` is an index into `mdb_buflists`. -/
structure MdbMng where
  freelist : Option Nat
  numFree : Nat
  nextFreelist : Option Nat
  prevFreelist : Option Nat
  bl : Nat

/-- `mdb_buflist_t`, but for `list_of_lists`, the only field that changes. -/
structure MdbBuflist where
  size : Nat
  maxFree : Nat
  deriving DecidableEq

structure MdbState where
  buflists : List MdbBuflist
  listOfLists : Nat → Option Nat
  mng : Nat → MdbMng
  link : Nat → Option Nat
  chunks : List (Nat × Nat)

/-! ## Initialisation -/

/-- `mdb_add_size`. -/
def mdbAddSize (sizes : List Nat) (size : Nat) : List Nat :=
  if size ∈ sizes then sizes else sizes ++ [size]

/-- The loop that computes `max_free`, on 64-bit words. -/
def maxFreeLoop (size : Nat) : Nat → Nat → Nat → Option Nat
  | 0, _, _ => none
  | fuel + 1, i, maxFree =>
    if mdbMngSize ≤ i then maxFreeLoop size fuel ((i + 2 ^ 64 - size) % 2 ^ 64) (maxFree + 1)
    else some maxFree

/-- An entry of `mdb_buflists`. -/
def mdbBuflist (size : Nat) : Option MdbBuflist :=
  if mdbAllocChunksz ≤ size then some ⟨size, 0⟩
  else (maxFreeLoop size (mdbAllocChunksz + 1) (mdbAllocChunksz - size) 0).map fun n => ⟨size, n⟩

/-- The sizes that `mdb_buflist_init` adds, for the shifts of `mdb_pgshifts`. -/
def mdbSizes (pgshifts : List Nat) : List Nat :=
  let sizes := mdbAddSize (mdbAddSize [] mapnodeSize) dualnodeSize
  (pgshifts.zip pgshifts.tail).foldl (fun sizes s => mdbAddSize sizes (2 ^ (s.2 - s.1) * rootnodeSize))
    sizes

/-- `mdb_buflist_init`. -/
def mdbBuflistInit (pgshifts : List Nat) : Option MdbState := do
  let buflists ← (mdbSizes pgshifts).mapM mdbBuflist
  return ⟨buflists, fun _ => none, fun _ => ⟨none, 0, none, none, 0⟩, fun _ => none, []⟩

namespace MdbState

/-- `kmem.alloc` returns the chunk at `a`. -/
def kmemAlloc (s : MdbState) (a size : Nat) : MdbState := { s with chunks := (a, size) :: s.chunks }

/-- `kmem.free`. -/
def kmemFree (s : MdbState) (a size : Nat) : MdbState :=
  { s with chunks := s.chunks.erase (a, size) }

/-- A write to the management structure of a frame. -/
def updMng (s : MdbState) (m : Nat) (f : MdbMng → MdbMng) : MdbState :=
  { s with mng := Function.update s.mng m (f (s.mng m)) }

/-- A write through a pointer that may be null. -/
def updMng? (s : MdbState) (m : Option Nat) (f : MdbMng → MdbMng) : MdbState :=
  match m with
  | none => s
  | some m => s.updMng m f

def setList (s : MdbState) (k : Nat) (v : Option Nat) : MdbState :=
  { s with listOfLists := Function.update s.listOfLists k v }

/-- The loop that links the buffers from `b` to `ed`; it ends with the address behind the last one. -/
def linkBuffers (size ed : Nat) : Nat → Nat → (Nat → Option Nat) → (Nat → Option Nat) × Nat
  | 0, b, link => (link, b)
  | fuel + 1, b, link =>
    if b ≤ ed then linkBuffers size ed fuel (b + size) (Function.update link b (some (b + size)))
    else (link, b)

/-- A pool in the new frame at `a`. -/
def newPool (s : MdbState) (k : Nat) (bl : MdbBuflist) (a : Nat) : MdbState :=
  let s := s.kmemAlloc a mdbAllocChunksz
  let freelist := a + mdbAllocChunksz - bl.maxFree * bl.size
  let s := s.updMng a fun m =>
    { m with freelist := some freelist, numFree := bl.maxFree, prevFreelist := none, bl := k }
  let ed := a + mdbAllocChunksz - bl.size
  let (link, b) := linkBuffers bl.size ed (mdbAllocChunksz + 1) freelist s.link
  let s := { s with link := Function.update link (b - bl.size) none }
  let s := s.updMng a fun m => { m with nextFreelist := s.listOfLists k }
  let s := s.setList k (some a)
  s.updMng? (s.mng a).nextFreelist fun m => { m with prevFreelist := some a }

/-- Take a buffer from the pool in the frame `mng`. -/
def takeBuffer (s : MdbState) (k mng : Nat) : Option (MdbState × Nat) :=
  match (s.mng mng).freelist with
  | none => none
  | some buf =>
    let s := s.updMng mng fun m => { m with freelist := s.link buf, numFree := m.numFree - 1 }
    let s :=
      if (s.mng mng).numFree = 0 then
        let next := (s.mng mng).nextFreelist
        (s.setList k next).updMng? next fun m => { m with prevFreelist := none }
      else s
    some (s, buf)

/-- `mdb_alloc_buffer`; an illegal size panics. -/
def mdbAllocBuffer (s : MdbState) (size a : Nat) : Option (MdbState × Nat) := do
  let k ← s.buflists.findIdx? fun bl => bl.size == size
  let bl ← s.buflists[k]?
  if mdbAllocChunksz ≤ size then return (s.kmemAlloc a size, a)
  else
    match s.listOfLists k with
    | some mng => s.takeBuffer k mng
    | none => (s.newPool k bl a).takeBuffer k a

/-- Put the pool in the frame `mng` back into the list of pools. -/
def enqueuePool (s : MdbState) (k mng : Nat) : MdbState :=
  let head := s.listOfLists k
  let s := s.updMng? head fun m => { m with prevFreelist := some mng }
  let s := s.updMng mng fun m => { m with nextFreelist := head, prevFreelist := none }
  s.setList k (some mng)

/-- Give the frame `mng` back to `kmem`. -/
def releasePool (s : MdbState) (k mng : Nat) : MdbState :=
  let next := (s.mng mng).nextFreelist
  let s := s.updMng? next fun m => { m with prevFreelist := (s.mng mng).prevFreelist }
  let s :=
    if s.listOfLists k = some mng then s.setList k (s.mng mng).nextFreelist
    else
      s.updMng? (s.mng mng).prevFreelist fun m => { m with nextFreelist := (s.mng mng).nextFreelist }
  s.kmemFree mng mdbAllocChunksz

/-- `mdb_free_buffer`. -/
def mdbFreeBuffer (s : MdbState) (addr size : Nat) : Option MdbState :=
  if mdbAllocChunksz ≤ size then some (s.kmemFree addr size)
  else
    let mng := addr / mdbAllocChunksz * mdbAllocChunksz
    let k := (s.mng mng).bl
    match s.buflists[k]? with
    | none => none
    | some bl =>
      let s := { s with link := Function.update s.link addr (s.mng mng).freelist }
      let s := s.updMng mng fun m => { m with freelist := some addr, numFree := m.numFree + 1 }
      if (s.mng mng).numFree = 1 then some (s.enqueuePool k mng)
      else if (s.mng mng).numFree = bl.maxFree then some (s.releasePool k mng)
      else some s

end MdbState

end L4Thread
