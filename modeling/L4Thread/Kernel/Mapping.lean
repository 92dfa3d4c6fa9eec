import L4Thread.Kernel.MdbAlloc
import L4Thread.Kernel.Unmap

/-!
# The mapping database

`mapping.cc` and `include/mapping.h`: `init_mdb` and `mdb_map`, and what `map_fpage` of
`linear_ptab_walker.cc` does at an entry of the receiver that holds no mapping. The nodes of the
database are maps from addresses, one for each type of node, and a null pointer is the address 0.
Pointers are kept whole; the code drops their low bits, which are zero. The reference bits of a node
are left out.
-/

namespace L4Thread

/-! ## Page sizes -/

/-- `mdb_pgshifts`, which are the page sizes of the hardware. -/
def mdbPgshifts : List Nat := hwPgshifts

def mdbPgshift (size : Nat) : Nat := mdbPgshifts.getD size 0

/-- `mapnode_t::size_max`. -/
def mdbSizeMax : Nat := 7

def mdbArraysize (size : Nat) : Nat := 2 ^ (mdbPgshift (size + 1) - mdbPgshift size)

def mdbGetIndex (size : Nat) (addr : Word) : Nat :=
  addr.toNat / 2 ^ mdbPgshift size % mdbArraysize size

/-- `mdb_pgsize`. -/
def mdbPgsize (hwPgsize : Nat) : Nat := mdbPgshifts.findIdx (pageShift hwPgsize ≤ ·)

/-! ## Nodes -/

/-- The pointer to what comes next: an array of roots, a mapping, or a dual node with both. -/
structure NextLink where
  isNextRoot : Bool
  isNextMap : Bool
  ptr : Word
  deriving DecidableEq

namespace NextLink

def zero : NextLink := ⟨false, false, 0⟩

def map (p : Word) : NextLink := ⟨false, true, p⟩

def root (r : Word) : NextLink := ⟨true, false, r⟩

def dual (d : Word) : NextLink := ⟨true, true, d⟩

def isNextBoth (l : NextLink) : Bool := l.isNextRoot && l.isNextMap

end NextLink

/-- `mapnode_t`; `prev` is the previous node with the page table entry, exclusive or. -/
structure MapNode where
  isPrevRoot : Bool
  prev : Word
  depth : BitVec 8
  space : Word
  next : NextLink
  deriving DecidableEq

def MapNode.zero : MapNode := ⟨false, 0, 0, 0, .zero⟩

/-- `dualnode_t`. -/
structure DualNode where
  map : Word
  root : Word
  deriving DecidableEq

/-- The nodes, and the buffers that are in use. A `rootnode_t` is only its link. -/
structure Mdb where
  node : Word → MapNode
  root : Word → NextLink
  dual : Word → DualNode
  used : Word → Bool

/-- `mdb_alloc_buffer` returns a buffer that is not in use. -/
structure MdbBuffers where
  alloc : Mdb → Nat → Option Word
  unused : ∀ {m n a}, alloc m n = some a → m.used a = false
  ne_zero : ∀ {m n a}, alloc m n = some a → a ≠ 0

/-- A node that mappings are inserted below. -/
inductive MdbPlace
  | node (p : Word)
  | root (r : Word)
  deriving DecidableEq

namespace Mdb

/-- `get_map` and `get_nextmap`. -/
def getMap (m : Mdb) (l : NextLink) : Word :=
  if !l.isNextMap then 0 else if l.isNextRoot then (m.dual l.ptr).map else l.ptr

/-- `get_root` and `get_nextroot`. -/
def getRoot (m : Mdb) (l : NextLink) : Word :=
  if !l.isNextRoot then 0 else if l.isNextMap then (m.dual l.ptr).root else l.ptr

def next (m : Mdb) : MdbPlace → NextLink
  | .node p => (m.node p).next
  | .root r => m.root r

def setNode (m : Mdb) (p : Word) (n : MapNode) : Mdb :=
  { m with node := Function.update m.node p n }

def setDual (m : Mdb) (d : Word) (n : DualNode) : Mdb :=
  { m with dual := Function.update m.dual d n }

/-- `set_next` and `set_ptr`. -/
def setNext (m : Mdb) (q : MdbPlace) (l : NextLink) : Mdb :=
  match q with
  | .node p => m.setNode p { m.node p with next := l }
  | .root r => { m with root := Function.update m.root r l }

/-- `get_pgent` of a node after `prev`. -/
def getPgent (m : Mdb) (p prev : Word) : Word := (m.node p).prev ^^^ prev

def setBacklink (m : Mdb) (p : Word) (isPrevRoot : Bool) (prev pg : Word) : Mdb :=
  m.setNode p { m.node p with isPrevRoot, prev := prev ^^^ pg }

end Mdb

def MdbPlace.ptr : MdbPlace → Word
  | .node p => p
  | .root r => r

def MdbPlace.isRoot : MdbPlace → Bool
  | .node _ => false
  | .root _ => true

namespace MdbBuffers

variable (b : MdbBuffers)

def allocBuffer (size : Nat) (m : Mdb) : Option (Word × Mdb) :=
  (b.alloc m size).map fun a => (a, { m with used := Function.update m.used a true })

/-- `mdb_create_roots`. -/
def createRoots (size : Nat) (m : Mdb) : Option (Word × Mdb) := do
  let num := mdbArraysize size
  let (a, m) ← b.allocBuffer (rootnodeSize * num) m
  let root := fun r =>
    if (r - a).toNat < rootnodeSize * num then NextLink.map 0 else m.root r
  return (a, { m with root })

/-- `mdb_create_dual`. -/
def createDual (map root : Word) (m : Mdb) : Option (Word × Mdb) := do
  let (d, m) ← b.allocBuffer dualnodeSize m
  return (d, m.setDual d ⟨map, root⟩)

/-- `init_mdb`, which lets `sigma0_mapnode` own the address space. -/
def initMdb (sigma0Mapnode : Word) (m : Mdb) : Option Mdb := do
  let (roots, m) ← b.createRoots mdbSizeMax m
  let (d, m) ← b.createDual 0 roots m
  return m.setNode sigma0Mapnode ⟨false, 0, 0, 0, .dual d⟩

/-! ## `mdb_map` -/

/-- The array of roots of a size below a place; it is created where there is none. -/
def below (size : Nat) (q : MdbPlace) (m : Mdb) : Option (Word × Mdb) :=
  let nmap := m.getMap (m.next q)
  let root := m.getRoot (m.next q)
  if root = 0 then do
    let (root, m) ← b.createRoots size m
    if nmap = 0 then pure (root, m.setNext q (.root root))
    else
      let (d, m) ← b.createDual nmap root m
      pure (root, m.setNext q (.dual d))
  else some (root, m)

/-- The loop of `mdb_map`, with the number of page sizes to go; the result is the root node below
which the mapping is inserted. -/
def intoSubtree (fAddr : Word) : Nat → Nat → MdbPlace → Mdb → Option (MdbPlace × Mdb)
  | _, 0, q, m => some (q, m)
  | fPgsize, n + 1, q, m => do
    let size := fPgsize - 1
    let (root, m) ← b.below size q m
    let r := root + BitVec.ofNat 64 (rootnodeSize * mdbGetIndex size fAddr)
    intoSubtree fAddr size n (.root r) m

/-- The next mapping of a place becomes `newmap`. -/
def setNextMap (newmap : Word) (q : MdbPlace) (m : Mdb) : Option Mdb :=
  let l := m.next q
  if l.isNextRoot && !l.isNextMap then do
    let (d, m) ← b.createDual newmap (m.getRoot l) m
    return m.setNext q (.dual d)
  else if l.isNextBoth then some (m.setDual l.ptr { m.dual l.ptr with map := newmap })
  else some (m.setNext q (.map newmap))

/-- A new mapping is hooked directly below a place. -/
def hook (newmap tPg tSpace : Word) (depth : BitVec 8) (q : MdbPlace) (m : Mdb) : Option Mdb := do
  let nmap := m.getMap (m.next q)
  let m := m.setNode newmap ⟨q.isRoot, q.ptr ^^^ tPg, depth, tSpace, .map nmap⟩
  let m ← b.setNextMap newmap q m
  return if nmap = 0 then m else m.setBacklink nmap false newmap (m.getPgent nmap q.ptr)

/-- `mdb_map`: the node of the new mapping. -/
def mdbMap (fMap fPg : Word) (fHwpgsize : Nat) (fAddr tPg : Word) (tHwpgsize : Nat) (tSpace : Word)
    (grant : Bool) (m : Mdb) : Option (Word × Mdb) :=
  if grant then
    -- the previous node is read off the backlink with the entry of the source
    let prev := (m.node fMap).prev ^^^ fPg
    let m := m.setBacklink fMap (m.node fMap).isPrevRoot prev tPg
    some (fMap, m.setNode fMap { m.node fMap with space := tSpace })
  else if mdbPgsize fHwpgsize < mdbPgsize tHwpgsize then none  -- the root node is a null pointer
  else do
    let fPgsize := mdbPgsize fHwpgsize
    let (newmap, m) ← b.allocBuffer mapnodeSize m
    let depth := (m.node fMap).depth + 1
    let (q, m) ← b.intoSubtree fAddr fPgsize (fPgsize - mdbPgsize tHwpgsize) (.node fMap) m
    let m ← b.hook newmap tPg tSpace depth q m
    return (newmap, m)

end MdbBuffers

/-! ## Insertion of a mapping -/

/-- `update_rights`. -/
def PageTable.updateRights (pt : PageTable) (p : PgPtr) (rwx : Word) : PageTable :=
  if rwx.getLsbD 1 then pt.set p { pt.get p with low := (pt.get p).low ||| 4 } else pt

/-- The mapping database and the page tables of the spaces. -/
structure MapState where
  mdb : Mdb
  table : Word → PageTable

/-- What stays the same while mappings are inserted. -/
structure Mapper where
  buffers : MdbBuffers
  sigma0Space : Word
  sigma0Mapnode : Word
  sigma0Mapnode_ne : sigma0Mapnode ≠ 0
  /-- The address of an entry of the page tables of a space. -/
  pgentAddr : Word → PgPtr → Word

/-- The locals of `map_fpage` where it inserts a mapping. -/
structure InsertArgs where
  this : Word
  fpg : PgPtr
  fSize : Nat
  fAddr : Word
  fOff : Word
  tSpace : Word
  tpg : PgPtr
  tSize : Nat
  tAddr : Word
  sndFp : Fpage
  grant : Bool
  deriving DecidableEq

namespace Mapper

variable (k : Mapper)

/-- The new entry of the receiver. -/
def enter (a : InsertArgs) (paddr : Word) (read write : Bool) (attrib : BitVec 3) (newmap : Word)
    (table : Word → PageTable) : Word → PageTable :=
  let pt := (table a.tSpace).setEntry a.tpg a.tSize paddr read write false attrib
  Function.update table a.tSpace (pt.setLink a.tpg (newmap ^^^ a.tAddr))

/-- `map_fpage` inserts a mapping. -/
def insertMapping (a : InsertArgs) (s : MapState) : Option MapState :=
  let offset := a.fAddr &&& pageMask a.fSize &&& ~~~pageMask a.tSize
  let pt := s.table a.this
  let tPg := k.pgentAddr a.tSpace a.tpg
  let fPg := k.pgentAddr a.this a.fpg
  if a.this = k.sigma0Space then do
    let paddr := a.fAddr + (offset + a.fOff)
    let (newmap, mdb) ← k.buffers.mdbMap k.sigma0Mapnode fPg (PgSize.sizeMax + 1) paddr tPg a.tSize
      a.tSpace a.grant s.mdb
    let attrib :=
      match pt.lookupMapping a.fAddr with
      | some (fpg, _) => (pt.get fpg).attributes
      | none => Pgent.l4default
    let table := enter a paddr a.sndFp.isRead a.sndFp.isWrite attrib newmap s.table
    return ⟨mdb, table⟩
  else do
    let e := pt.get a.fpg
    let map := pt.getLink a.fpg ^^^ (a.fAddr &&& ~~~pageMask a.fSize)
    let (newmap, mdb) ← k.buffers.mdbMap map fPg a.fSize a.fAddr tPg a.tSize a.tSpace a.grant s.mdb
    let paddr := e.address a.fSize + (offset + a.fOff)
    let table := enter a paddr (e.isReadable && a.sndFp.isRead)
      (e.isWritable && a.sndFp.isWrite) e.attributes newmap s.table
    return ⟨mdb,
      if a.grant then Function.update table a.this ((table a.this).clear a.fpg a.fSize false)
      else table⟩

end Mapper

end L4Thread
