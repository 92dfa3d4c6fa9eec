import L4Thread.Kernel.Readmem

/-!
# Mappings that the kernel adds itself

`space_t::add_mapping` of `src/glue/v4-mips64/space.cc` and what goes through it: the kernel
interface page of a new space, the UTCB pages, the pages of sigma0 and the TCBs. A page table is
allocated for one entry, so that the allocator is a function of the entry.
-/

namespace L4Thread

/-- `HW_VALID_PGSIZES`. -/
def hwValidPgsizes : Word :=
  1 <<< 12 ||| 1 <<< 14 ||| 1 <<< 16 ||| 1 <<< 18 ||| 1 <<< 20 ||| 1 <<< 22 ||| 1 <<< 24

/-- `is_page_size_valid`. -/
def isPageSizeValid (pgsize : Nat) : Bool := 1 <<< pageShift pgsize &&& hwValidPgsizes != 0

/-- `AS_KSEG_START`. -/
def asKsegStart : Word := 0xffffffff80000000

def virtToPhys (addr : Word) : Word := addr - asKsegStart

def physToVirt (addr : Word) : Word := addr + asKsegStart

/-- The arguments of `add_mapping`. -/
structure Addition where
  vaddr : Word
  paddr : Word
  size : Nat
  writable : Bool
  kernel : Bool
  deriving DecidableEq

namespace PageTable

variable (ptab : PgPtr → BitVec 56)

/-- The loop of `add_mapping`, and the entry at its end. -/
def addMappingFrom (m : Addition) : Nat → PgPtr → PageTable → PageTable
  | 0, pg, pt => pt.setEntry pg 0 m.paddr true m.writable m.kernel Pgent.l4default
  | pgsize + 1, pg, pt =>
    if pgsize + 1 > m.size then
      if (pt.get pg).valid (pgsize + 1) then
        -- a larger mapping stays as it is
        if !(pt.get pg).subtree (pgsize + 1) then pt
        else addMappingFrom m pgsize (down pg pgsize m.vaddr) pt
      else
        addMappingFrom m pgsize (down pg pgsize m.vaddr)
          (pt.makeSubtree pg (pgsize + 1) (ptab pg))
    else pt.setEntry pg (pgsize + 1) m.paddr true m.writable m.kernel Pgent.l4default

/-- `add_mapping`, without the insertion into the TLB. -/
def addMapping (m : Addition) (pt : PageTable) : PageTable :=
  if isPageSizeValid m.size then
    pt.addMappingFrom ptab m PgSize.sizeMax (rootPtr m.vaddr)
  else pt

/-- The mapping of the kernel interface page in `space_t::init`. -/
def mapKip (kipArea : Fpage) (kip : Word) (pt : PageTable) : PageTable :=
  pt.addMapping ptab ⟨kipArea.getAddress, virtToPhys kip, PgSize.size4k, false, false⟩

/-- `map_sigma0`. -/
def mapSigma0 (addr : Word) (pt : PageTable) : PageTable :=
  pt.addMapping ptab ⟨addr, addr, PgSize.size4k, true, false⟩

/-- `map_dummy_tcb`. -/
def mapDummyTcb (dummyTcb addr : Word) (pt : PageTable) : PageTable :=
  pt.addMapping ptab ⟨addr, virtToPhys dummyTcb, PgSize.size4k, false, true⟩

/-- `allocate_tcb`, with the page that `kmem.alloc` returns. -/
def allocateTcb (page addr : Word) (pt : PageTable) : PageTable :=
  pt.addMapping ptab ⟨addr, virtToPhys page, PgSize.size4k, true, true⟩

/-- `allocate_utcb`: the address of the UTCB in the kernel. Where there is no mapping, `page` is what
`kmem.alloc_aligned` returns. -/
def allocateUtcb (page utcb : Word) (pt : PageTable) : Word × PageTable :=
  match pt.lookupMapping utcb with
  | some (pg, pgsize) => (physToVirt (pt.phys pg pgsize utcb), pt)
  | none =>
    (page + (utcb &&& (pageSizeBytes PgSize.size4k - 1)),
      pt.addMapping ptab ⟨utcb, virtToPhys page, PgSize.size4k, true, false⟩)

/-- `utcb_to_kernel_space`. -/
def utcbToKernelSpace (pt : PageTable) (utcb : Word) : Word :=
  match pt.lookupMapping utcb with
  | some (pg, _) => physToVirt (pt.get pg).physAddr
  | none => 0

end PageTable

end L4Thread
