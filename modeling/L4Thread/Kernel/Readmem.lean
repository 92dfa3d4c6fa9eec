import L4Thread.Kernel.Memory
import L4Thread.Kernel.PageTable
import L4Thread.Lib.Bytes

/-!
# Reads of user memory

`space_t::readmem` of `src/generic/linear_ptab_walker.cc`, which reads a word of any alignment
through the page tables, and its wrapper `readmem<T>` of `include/linear_ptab.h`. The target is
big-endian.
-/

namespace L4Thread

/-- The types that `readmem<T>` is used with, by their size. -/
inductive ReadType
  | u8
  | u16
  | u32
  | u64
  deriving DecidableEq

/-- `sizeof (T)`. -/
def ReadType.size : ReadType → Nat
  | u8 => 1
  | u16 => 2
  | u32 => 4
  | u64 => 8

/-- The conversion to the type, from a word. -/
def ReadType.narrow (w : Word) : ReadType → Word
  | u8 => w &&& 0xff
  | u16 => w &&& 0xffff
  | u32 => w &&& 0xffffffff
  | u64 => w

/-- The bytes of memory. -/
abbrev Memory := Word → BitVec 8

/-- `n` bytes from an address on. -/
def Memory.bytes (mem : Memory) : Nat → Word → List (BitVec 8)
  | 0, _ => []
  | n + 1, addr => mem addr :: mem.bytes n (addr + 1)

namespace PageTable

/-- `readmem_phys`. -/
def readmemPhys (mem : Memory) (paddr : Word) : Word := Bytes.word 64 (mem.bytes 8 paddr)

/-- The physical address of an address in a page: `addr_offset (pg->address (this, pgsize),
vaddr & page_mask (pgsize))`. -/
def phys (pt : PageTable) (pg : PgPtr) (pgsize : Nat) (vaddr : Word) : Word :=
  (pt.get pg).address pgsize + (vaddr &&& pageMask pgsize)

/-- The contents, from two separate accesses. -/
def assemble (mem : Memory) (vaddr paddr1 paddr2 : Word) : Word :=
  let idx := (vaddr &&& (8 - 1)).toNat
  readmemPhys mem paddr1 <<< (idx * 8) ||| readmemPhys mem paddr2 >>> ((8 - idx) * 8)

/-- `readmem`, for a word. -/
def readmemWord (pt : PageTable) (mem : Memory) (vaddr : Word) : Option Word :=
  match pt.lookupMapping vaddr with
  | none => none
  | some (pg, pgsize) =>
    let paddr := pt.phys pg pgsize vaddr
    let paddr1 := paddr &&& ~~~(8 - 1)
    if paddr1 = paddr then some (readmemPhys mem paddr)
    else
      let paddr2 := paddr1 + 8
      let mask := ~~~pageMask pgsize
      if paddr1 &&& mask ≠ paddr2 &&& mask then
        -- the word crosses the page boundary
        let vaddr := vaddr + 8
        match pt.lookupMapping vaddr with
        | none => none
        | some (pg, pgsize) =>
          let paddr2 := pt.phys pg pgsize vaddr &&& ~~~(8 - 1)
          some (assemble mem vaddr paddr1 paddr2)
      else some (assemble mem vaddr paddr1 paddr2)

/-- `readmem<T>`. Outside the user area memory is accessed through the kernel's own mappings:
`kernel` has its bytes by virtual address. -/
def readmem (pt : PageTable) (kernel mem : Memory) (vaddr : Word) (T : ReadType) : Option Word :=
  if !Space.isUserArea vaddr then some (Bytes.word 64 (kernel.bytes T.size vaddr))
  else
    match pt.readmemWord mem vaddr with
    | none => none
    | some w => some (T.narrow (w >>> (8 - T.size)))

end PageTable

end L4Thread
