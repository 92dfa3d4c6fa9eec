import L4Thread.Kernel.PageTable

/-!
# The range of a map operation

What `map_fpage` of `src/generic/linear_ptab_walker.cc` computes before it walks the page tables. A
shift by the width of a word is undefined.
-/

namespace L4Thread

/-- `get_size_log2`. -/
def Fpage.getSizeLog2 (f : Fpage) : Nat := if f.isCompleteFpage then 64 else f.sizeField

inductive MapRangeError
  /-- A shift by the width of a word. -/
  | shift
  /-- The range is smaller than a page. -/
  | size
  deriving DecidableEq

def shl (x : Word) (n : Nat) : Except MapRangeError Word :=
  if n < 64 then .ok (x <<< n) else .error .shift

def shr (x : Word) (n : Nat) : Except MapRangeError Word :=
  if n < 64 then .ok (x >>> n) else .error .shift

/-- `base_mask`. -/
def baseMask (fp : Fpage) (size : Nat) : Except MapRangeError Word := do
  let high ← shr (BitVec.allOnes 64) (64 - fp.getSizeLog2)
  let low ← shr (BitVec.allOnes 64) (64 - size)
  return high &&& ~~~low

/-- `address`; the word is taken with its size and its rights. -/
def Fpage.address (fp : Fpage) (size : Nat) : Except MapRangeError Word := do
  let bit ← shl 1 size
  return fp.raw &&& ~~~(bit - 1)

/-- The largest page size up to `size` that is not larger than the range. -/
def findPgsize (num : Nat) : Nat → Nat
  | 0 => 0
  | size + 1 => if num < pageShift (size + 1) then findPgsize num size else size + 1

/-- The two addresses, the number of pages and their size. -/
structure MapRange where
  fAddr : Word
  tAddr : Word
  num : Word
  pgsize : Nat
  deriving DecidableEq

/-- The number of pages and their size. -/
def pagesOf (fAddr tAddr : Word) (num : Nat) : Except MapRangeError MapRange :=
  if num < pageShift 0 then .error .size
  else do
    let pgsize := findPgsize num PgSize.sizeMax
    return { fAddr, tAddr, num := ← shl 1 (num - pageShift pgsize), pgsize }

/-- The first part of `map_fpage`. -/
def mapRange (sndFp rcvFp : Fpage) (base : Word) : Except MapRangeError MapRange :=
  if sndFp.getSizeLog2 ≤ rcvFp.getSizeLog2 then do
    let num := sndFp.getSizeLog2
    let mask ← baseMask rcvFp num
    let fAddr ← sndFp.address num
    let tAddr := ((← rcvFp.address num) &&& ~~~mask) + (base &&& mask)
    pagesOf fAddr tAddr num
  else do
    let num := rcvFp.getSizeLog2
    let mask ← baseMask sndFp num
    let fAddr := ((← sndFp.address num) &&& ~~~mask) + (base &&& mask)
    let tAddr ← rcvFp.address num
    pagesOf fAddr tAddr num

end L4Thread
