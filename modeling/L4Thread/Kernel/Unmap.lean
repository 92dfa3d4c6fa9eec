import L4Thread.Kernel.MapRange
import L4Thread.Kernel.Memory

/-!
# Unmapping flexpages

`unmap_fpage` of `src/generic/linear_ptab_walker.cc`. The walk keeps an entry, its virtual address,
the number of entries left and the page size, with the entries and numbers of the larger sizes on a
stack. `mdb_flush` and the release of a kernel mapping are what they do to the page table of the
space and to the rest of the memory. The TLB is not part of the state, and the debugger returns.
-/

namespace L4Thread

namespace Fpage

def isRead (f : Fpage) : Bool := f.raw.getLsbD 2

def isWrite (f : Fpage) : Bool := f.raw.getLsbD 1

def isExecute (f : Fpage) : Bool := f.raw.getLsbD 0

def isRwx (f : Fpage) : Bool := f.isRead && f.isWrite && f.isExecute

def getRwx (f : Fpage) : Word := f.raw &&& 7

/-- `set` with its rights. -/
def setWith (base : Word) (size : Nat) (read write exec : Bool) : Fpage :=
  ⟨(set base size).raw ||| BitVec.ofNat 64 (4 * read.toNat + 2 * write.toNat + exec.toNat)⟩

/-- `set_rwx`: the rights that the flexpage has stay set. -/
def setRwx (f : Fpage) (rwx : Word) : Fpage := ⟨f.raw ||| rwx &&& 7⟩

/-- `address` of the walker; the shift count is taken modulo 64. -/
def addressWrapped (f : Fpage) (size : Nat) : Word :=
  f.raw &&& ~~~(((1 : Word) <<< (size % 64)) - 1)

end Fpage

namespace Space

/-- `is_mappable` for an address. -/
def isMappable (sp : Space) (addr : Word) : Bool :=
  isUserArea addr && !sp.kipArea.isAddrInFpage addr && !sp.utcbArea.isAddrInFpage addr

/-- `is_mappable` for a flexpage. -/
def isMappableFpage (sp : Space) (f : Fpage) : Bool :=
  isUserAreaFpage f && (!sp.kipArea.isOverlapping f && !sp.utcbArea.isOverlapping f)

end Space

/-- The arguments of `mdb_flush`. -/
structure FlushArgs where
  fMap : Word
  fPg : PgPtr
  fHwpgsize : Nat
  fAddr : Word
  tHwpgsize : Nat
  fp : Fpage
  unmapSelf : Bool
  deriving DecidableEq

/-- The space whose flexpage is unmapped, and the code that the walk calls; `μ` is the memory besides
the page table of the space. -/
structure Unmapper (μ : Type) where
  space : Space
  /-- The reference bits, and the state behind `mdb_flush`. -/
  mdbFlush : FlushArgs → PageTable × μ → Word × (PageTable × μ)
  releaseKernelMapping : Word → Word → Nat → μ → μ

/-- The locals of `unmap_fpage` that the walk changes. -/
structure UnmapWalk where
  size : Nat
  pg : PgPtr
  vaddr : Word
  num : Nat
  rwx : Word
  rPg : Nat → PgPtr
  rNum : Nat → Nat

namespace Unmapper

variable {μ : Type} (u : Unmapper μ) (fpage : Fpage) (flush unmapAll : Bool) (pgsize : Nat)

/-- The loop that recurses up, with the number of sizes up to that of the walk. -/
def recurseUp : Nat → UnmapWalk → PageTable × μ → UnmapWalk × (PageTable × μ)
  | 0, w, st => (w, st)
  | n + 1, w, (pt, m) =>
    if w.num = 0 then
      let pg := w.rPg w.size
      let size := w.size + 1
      let fp := Fpage.set w.vaddr (pageSizeBytes size).toNat
      let pt :=
        if flush && fpage.isRwx && (unmapAll || u.space.isMappableFpage fp) then
          pt.removeSubtree pg size
        else pt
      recurseUp n { w with pg := pg.next size 1, num := w.rNum w.size, size } (pt, m)
    else (w, (pt, m))

/-- The label `Next_entry`. -/
def nextEntry (w : UnmapWalk) (st : PageTable × μ) : UnmapWalk × (PageTable × μ) :=
  u.recurseUp fpage flush unmapAll (pgsize - w.size)
    { w with
      pg := w.pg.next w.size 1, vaddr := w.vaddr + pageSizeBytes w.size, num := w.num - 1 } st

/-- An entry that is a mapping. -/
def unmapLeaf (w : UnmapWalk) (st : PageTable × μ) : UnmapWalk × (PageTable × μ) :=
  if u.space.isMappable w.vaddr then
    let map := st.1.getLink w.pg ^^^ (w.vaddr &&& ~~~pageMask w.size)
    let r := u.mdbFlush ⟨map, w.pg, w.size, w.vaddr, pgsize, fpage, flush⟩ st
    ({ w with rwx := w.rwx ||| r.1 }, r.2)
  else if unmapAll then
    let m := u.releaseKernelMapping w.vaddr ((st.1.get w.pg).address w.size) (pageShift w.size) st.2
    (w, (st.1.clear w.pg w.size true, m))
  else (w, st)

/-- Down to the entry of the next smaller size for the address. -/
def descend (w : UnmapWalk) : UnmapWalk :=
  { w with
    size := w.size - 1
    pg := (w.pg.subtree w.size).next (w.size - 1) (pageTableIndex (w.size - 1) w.vaddr) }

/-- Into the table of smaller pages, with the place to come back to. -/
def enterSubtree (w : UnmapWalk) : UnmapWalk :=
  { w with
    size := w.size - 1, pg := w.pg.subtree w.size, num := pageTableSize (w.size - 1)
    rPg := Function.update w.rPg (w.size - 1) w.pg
    rNum := Function.update w.rNum (w.size - 1) (w.num - 1) }

/-- An iteration of the walk; `none` for a `break`. -/
def unmapStep (w : UnmapWalk) (st : PageTable × μ) : Option (UnmapWalk × (PageTable × μ)) :=
  let e := st.1.get w.pg
  if !Space.isUserArea w.vaddr then none
  else if pgsize < w.size ∧ !e.valid w.size then none
  else if pgsize < w.size ∧ e.subtree w.size then some (descend w, st)
  else if pgsize < w.size ∧ fpage.isRwx ∧ flush then none
  else if !e.valid w.size then some (u.nextEntry fpage flush unmapAll pgsize w st)
  else if e.subtree w.size then some (enterSubtree w, st)
  else
    let r := u.unmapLeaf fpage flush unmapAll pgsize w st
    some (u.nextEntry fpage flush unmapAll pgsize r.1 r.2)

/-- The loop of the walk; `none` when it is still running. -/
def unmapLoop : Nat → UnmapWalk → PageTable × μ → Option (Word × (PageTable × μ))
  | 0, _, _ => none
  | fuel + 1, w, st =>
    if w.num = 0 then some (w.rwx, st)
    else
      match u.unmapStep fpage flush unmapAll pgsize w st with
      | some (w, st) => unmapLoop fuel w st
      | none => some (w.rwx, st)

/-- Where the walk starts. -/
def startWalk (fpage : Fpage) (num pgsize : Nat) : UnmapWalk where
  size := PgSize.sizeMax
  pg := PgPtr.next ⟨.root, 0⟩ PgSize.sizeMax
    (pageTableIndex PgSize.sizeMax (fpage.addressWrapped fpage.getSizeLog2))
  vaddr := fpage.addressWrapped fpage.getSizeLog2
  num := 2 ^ (num - pageShift pgsize)
  rwx := 0
  rPg := fun _ => ⟨.root, 0⟩
  rNum := fun _ => 0

/-- `unmap_fpage`; `none` when the walk is still running after so many iterations. -/
def unmapFpage (fuel : Nat) (st : PageTable × μ) : Option (Fpage × (PageTable × μ)) :=
  if fpage.getSizeLog2 < pageShift 0 then some (fpage.setRwx 0, st)
  else
    let num := min fpage.getSizeLog2 (pageShift (PgSize.sizeMax + 1))
    let pgsize := findPgsize num PgSize.sizeMax
    (u.unmapLoop fpage flush unmapAll pgsize fuel (startWalk fpage num pgsize) st).map
      fun r => (fpage.setRwx r.1, r.2)

end Unmapper

end L4Thread
