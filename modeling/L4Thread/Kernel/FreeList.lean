import L4Thread.Lib.Chain
import L4Thread.Kernel.Memory

/-!
# The free list in memory

`kmem_t` of `src/generic/kmemory.cc` over the words of the memory that it hands out: every free
chunk holds the address of the next one in its first word. Words are numbers below `2 ^ 64`, and an
address that is computed wraps around. The loops that follow the list have fuel; `none` is the lack
of it, and 0 is the null pointer.
-/

namespace L4Thread

/-- `kmem_t`: `kmem_free_list` is the head, and the words of the memory are the links. -/
structure KmemMemory where
  list : Chain.Store Nat
  freeChunks : Nat

namespace KmemMemory

open Kmem (chunkSize)

/-- `sizeof (word_t)`. -/
def wordSize : Nat := 8

/-- A word at an address. -/
def word (m : KmemMemory) (a : Nat) : Nat := m.list.next a

/-- `curr[i] = 0` for the `n` words from `p` on. -/
def zeroWords (mem : Nat → Nat) (p : Nat) : Nat → Nat → Nat
  | 0 => mem
  | n + 1 => zeroWords (Function.update mem p 0) (p + wordSize) n

/-- The loop over the chunks behind `curr` that stands at the `i`-th one of `i + left`: the link
behind the run, or null if a chunk is missing. -/
def runEnd (mem : Nat → Nat) (curr i : Nat) : Nat → Nat → Nat
  | 0, tmp => tmp
  | left + 1, tmp =>
    if tmp = 0 then tmp
    else if tmp ≠ (curr + chunkSize * i) % 2 ^ 64 then 0
    else runEnd mem curr (i + 1) left (mem tmp)

/-- The loop over the free list; `prev` is the slot in front of `curr`. -/
def allocLoop (aligned : Nat → Bool) (size : Nat) (m : KmemMemory) :
    Nat → Option Nat → Nat → Option (Nat × KmemMemory)
  | 0, _, _ => none
  | fuel + 1, prev, curr =>
    if curr = 0 then some (0, m)
    else
      let tmp :=
        if aligned curr then runEnd m.word curr 1 (size / chunkSize - 1) (m.word curr) else 0
      if tmp = 0 then allocLoop aligned size m fuel (some curr) (m.word curr)
      else
        let list := m.list.set prev tmp
        some (curr,
          { list := { list with next := zeroWords list.next curr (size / wordSize) }
            freeChunks := m.freeChunks - size / chunkSize })

/-- The two allocators differ in their alignment test only. -/
def allocWhere (aligned : Nat → Bool) (size fuel : Nat) (m : KmemMemory) :
    Option (Nat × KmemMemory) :=
  allocLoop aligned size m fuel none m.list.head

def alloc (m : KmemMemory) (fuel size : Nat) : Option (Nat × KmemMemory) :=
  let size := max size chunkSize
  m.allocWhere (fun curr => curr &&& (size - 1) == 0) size fuel

def allocAligned (m : KmemMemory) (fuel size alignment mask : Nat) : Option (Nat × KmemMemory) :=
  let size := max size chunkSize
  m.allocWhere (fun curr => curr &&& mask == alignment &&& mask && curr &&& (size - 1) == 0) size fuel

/-- The loop of `free` that links the chunks of the block; the last chunk and the memory. -/
def linkChunks (stop : Nat) : Nat → (Nat → Nat) → Nat → Option (Nat × (Nat → Nat))
  | 0, _, _ => none
  | fuel + 1, mem, p =>
    if p < stop then
      let mem := Function.update mem p ((p + chunkSize) % 2 ^ 64)
      linkChunks stop fuel mem (mem p)
    else some (p, mem)

/-- The loop of `free` that looks for the place of the block: a slot and the link in it. -/
def findPlace (list : Chain.Store Nat) (address : Nat) :
    Nat → Option Nat → Nat → Option (Option Nat × Nat)
  | 0, _, _ => none
  | fuel + 1, prev, curr =>
    if curr ≠ 0 ∧ curr < address then findPlace list address fuel (some curr) (list.next curr)
    else some (prev, curr)

def free (m : KmemMemory) (fuel address size : Nat) : Option KmemMemory := do
  let size := max size chunkSize
  let (p, mem) ← linkChunks ((address + (size - chunkSize)) % 2 ^ 64) fuel m.list.next address
  let list := { m.list with next := mem }
  let (prev, curr) ← findPlace list address fuel none list.head
  some
    { list := (list.set prev address).set (some p) curr
      freeChunks := m.freeChunks + size / chunkSize }

end KmemMemory

end L4Thread
