import L4Thread.Api.Types

/-!
# Page tables

The packed page tables of the 40-bit MIPS64 configuration (`include/arch/mips64/pgent.h`,
`include/linear_ptab.h`) and `lookup_mapping` of `src/generic/linear_ptab_walker.cc`. Three levels of
tables hold the entries of eight page sizes: the table of the space has the entries of 4 GB, the
table below one of these has those of 16 MB and 4 MB, and the table below an entry of 4 MB has those
of 1 MB down to 4 KB. A page or group that is larger than the smallest of its table is represented
by its first entry.

A table is named by its place, since every table is allocated for one entry; the pointer in that
entry is kept, but not followed.
-/

namespace L4Thread

/-! ## Page sizes -/

/-! The enumerators of `pgsize_e`; the walkers count with page sizes. -/

namespace PgSize

def size4k : Nat := 0
def size16k : Nat := 1
def size64k : Nat := 2
def size256k : Nat := 3
def size1m : Nat := 4
def size4m : Nat := 5
def size16m : Nat := 6
def size4g : Nat := 7

def sizeMax : Nat := size4g

end PgSize

/-- `hw_pgshifts`; the last one is the shift of the whole address space. -/
def hwPgshifts : List Nat := [12, 14, 16, 18, 20, 22, 24, 32, 41]

def pageShift (size : Nat) : Nat := hwPgshifts.getD size 0

def pageSizeBytes (size : Nat) : Word := 1 <<< pageShift size

def pageMask (size : Nat) : Word := pageSizeBytes size - 1

def pageTableSize (size : Nat) : Nat := 2 ^ (pageShift (size + 1) - pageShift size)

def pageTableIndex (size : Nat) (vaddr : Word) : Nat :=
  vaddr.toNat / 2 ^ pageShift size % pageTableSize size

/-! ## Entries -/

/-- `pgent_t`: `low` is the pointer to a subtree or the lower part of a translation. -/
structure Pgent where
  low : BitVec 56
  pgsize : BitVec 4
  isSubtree : Bool
  isValid : Bool
  rid : BitVec 2
  deriving DecidableEq

namespace Pgent

def zero : Pgent := ⟨0, 0, false, false, 0⟩

/-- `is_valid`. -/
def valid (e : Pgent) (size : Nat) : Bool := e.isValid || (e.isSubtree && e.pgsize.toNat < size)

/-- `is_subtree`. -/
def subtree (e : Pgent) (size : Nat) : Bool :=
  if size = PgSize.size4g ∨ size = PgSize.size4m then e.isSubtree else e.pgsize.toNat < size

/-- `translation()->get_valid()`. -/
def isReadable (e : Pgent) : Bool := e.low.getLsbD 1

def isWritable (e : Pgent) : Bool := e.low.getLsbD 2 && e.low.getLsbD 1

/-- `translation()->phys_addr()`. -/
def physAddr (e : Pgent) : Word := (e.low.extractLsb' 6 24).setWidth 64 <<< 12

/-- `address`. -/
def address (e : Pgent) (size : Nat) : Word := e.physAddr &&& ~~~pageMask size

/-- `get_attributes`. -/
def attributes (e : Pgent) : BitVec 3 := e.low.extractLsb' 3 3

/-- `translation_t::l4default`. -/
def l4default : BitVec 3 := 3

/-- A new translation, as a mapping. -/
def mapping (size : Nat) (paddr : Word) (readable writable kernel : Bool)
    (attrib : BitVec 3) : Pgent where
  low :=
    (BitVec.ofBool kernel).setWidth 56 ||| (BitVec.ofBool readable).setWidth 56 <<< 1 |||
      (BitVec.ofBool writable).setWidth 56 <<< 2 ||| attrib.setWidth 56 <<< 3 |||
      ((paddr >>> 12).setWidth 24).setWidth 56 <<< 6
  pgsize := BitVec.ofNat 4 size
  isSubtree := false
  isValid := true
  rid := if kernel then 1 else 0

end Pgent

/-! ## Tables -/

/-- The table of the space, the one below its entry `i`, and the one below entry `j` of that. -/
inductive Table
  | root
  | dir (i : Nat)
  | leaf (i j : Nat)
  deriving DecidableEq

/-- A `pgent_t *`. -/
structure PgPtr where
  table : Table
  idx : Nat
  deriving DecidableEq

namespace PgPtr

/-- The distance of two entries of a size. -/
def stride : Nat → Nat
  | 1 | 6 => 4
  | 2 => 16
  | 3 => 64
  | 4 => 256
  | _ => 1

def next (p : PgPtr) (size : Nat) (num : Nat) : PgPtr := { p with idx := p.idx + stride size * num }

/-- `subtree`: the table below an entry of 4 GB or 4 MB, else the entry itself. -/
def subtree (p : PgPtr) (size : Nat) : PgPtr :=
  match p.table with
  | .root => if size = PgSize.size4g then ⟨.dir p.idx, 0⟩ else p
  | .dir i => if size = PgSize.size4m then ⟨.leaf i p.idx, 0⟩ else p
  | .leaf _ _ => p

end PgPtr

/-- The page tables of a space, with the link nodes behind their entries. -/
structure PageTable where
  ent : Table → Nat → Pgent
  link : Table → Nat → Word

namespace PageTable

def zero : PageTable := ⟨fun _ _ => .zero, fun _ _ => 0⟩

def get (pt : PageTable) (p : PgPtr) : Pgent := pt.ent p.table p.idx

def getLink (pt : PageTable) (p : PgPtr) : Word := pt.link p.table p.idx

def set (pt : PageTable) (p : PgPtr) (e : Pgent) : PageTable :=
  { pt with ent := Function.update pt.ent p.table (Function.update (pt.ent p.table) p.idx e) }

def setLink (pt : PageTable) (p : PgPtr) (w : Word) : PageTable :=
  { pt with link := Function.update pt.link p.table (Function.update (pt.link p.table) p.idx w) }

/-- A table fresh from `kmem.alloc`, which clears it. -/
def zeroTable (pt : PageTable) (t : Table) : PageTable :=
  ⟨Function.update pt.ent t fun _ => .zero, Function.update pt.link t fun _ => 0⟩

/-- `pgent_t::clear`. -/
def clear (pt : PageTable) (p : PgPtr) (size : Nat) (kernel : Bool) : PageTable :=
  let e := pt.get p
  let pt :=
    if size = PgSize.size4m ∨ size = PgSize.size4g then pt.set p .zero
    else pt.set p { e with isValid := false, isSubtree := true }
  if kernel then pt else pt.setLink p 0

/-- `pgent_t::make_subtree`; `ptab` is the pointer to the new table, where there is one. -/
def makeSubtree (pt : PageTable) (p : PgPtr) (size : Nat) (ptab : BitVec 56) : PageTable :=
  let e := { pt.get p with
    isValid := false, isSubtree := true, pgsize := BitVec.ofNat 4 size - 1 }
  if size = PgSize.size4m ∨ size = PgSize.size4g then
    (pt.set p { e with low := ptab }).zeroTable (p.subtree size).table
  else pt.set p e

/-- `pgent_t::remove_subtree`. -/
def removeSubtree (pt : PageTable) (p : PgPtr) (size : Nat) : PageTable :=
  if size = PgSize.size4m ∨ size = PgSize.size4g then pt.set p .zero
  else pt.set p { pt.get p with
    isValid := false, isSubtree := true, pgsize := BitVec.ofNat 4 size + 1 }

/-- `pgent_t::set_entry`. -/
def setEntry (pt : PageTable) (p : PgPtr) (size : Nat) (paddr : Word)
    (readable writable kernel : Bool) (attrib : BitVec 3) : PageTable :=
  pt.set p (.mapping size paddr readable writable kernel attrib)

/-! ## Lookup -/

/-- The first entry a walk for `vaddr` looks at. -/
def rootPtr (vaddr : Word) : PgPtr :=
  PgPtr.next ⟨.root, 0⟩ PgSize.sizeMax (pageTableIndex PgSize.sizeMax vaddr)

/-- The entry of the next smaller size. -/
def down (p : PgPtr) (size : Nat) (vaddr : Word) : PgPtr :=
  (p.subtree (size + 1)).next size (pageTableIndex size vaddr)

/-- The loop of `lookup_mapping`. -/
def lookupFrom (pt : PageTable) (vaddr : Word) : Nat → PgPtr → Option (PgPtr × Nat)
  | 0, p => if (pt.get p).valid 0 ∧ !(pt.get p).subtree 0 then some (p, 0) else none
  | size + 1, p =>
    if (pt.get p).valid (size + 1) then
      if (pt.get p).subtree (size + 1) then lookupFrom pt vaddr size (down p size vaddr)
      else some (p, size + 1)
    else none

/-- `lookup_mapping`. -/
def lookupMapping (pt : PageTable) (vaddr : Word) : Option (PgPtr × Nat) :=
  pt.lookupFrom vaddr PgSize.sizeMax (rootPtr vaddr)

end PageTable

end L4Thread
