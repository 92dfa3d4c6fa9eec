import L4Thread.Kernel.Unmap

/-!
# Memory attributes of flexpages

`attrib_fpage` of `src/glue/v4-mips64/memcontrol.cc`. The walk has the stack of `unmap_fpage` and
writes it, but does not read it. The TLB and the caches are not part of the state.
-/

namespace L4Thread

/-! The enumerators of `attribute_e`. -/

namespace Attribute

def l4default : Word := 0
def uncached : Word := 1
def writeBack : Word := 2
def writeThrough : Word := 3
def writeThroughNoalloc : Word := 4
def flushI : Word := 30
def flushD : Word := 31

end Attribute

namespace Pgent

/-! The other enumerators of `memattrib_e`. -/

def writeThroughNoalloc : BitVec 3 := 0
def writeThrough : BitVec 3 := 1
def uncached : BitVec 3 := 2
def writeBack : BitVec 3 := 3

/-- `translation()->set_attrib`. -/
def setAttrib (e : Pgent) (att : BitVec 3) : Pgent :=
  { e with low := (e.low &&& ~~~((7 : BitVec 56) <<< 3)) ||| att.setWidth 56 <<< 3 }

end Pgent

/-- The locals of `attrib_fpage` that the walk changes. -/
structure AttribWalk where
  size : Nat
  pg : PgPtr
  vaddr : Word
  num : Nat
  modify : Bool
  rPg : Nat → PgPtr
  rNum : Nat → Nat

namespace AttribWalk

/-- The `switch` on the attribute: `new_att` and `modify`, or `none` for an invalid attribute. -/
def newAttrib (attrib : Word) (modify : Bool) : Option (BitVec 3 × Bool) :=
  if attrib = Attribute.l4default then some (Pgent.l4default, modify)
  else if attrib = Attribute.uncached then some (Pgent.uncached, modify)
  else if attrib = Attribute.writeBack then some (Pgent.writeBack, modify)
  else if attrib = Attribute.writeThrough then some (Pgent.writeThrough, modify)
  else if attrib = Attribute.writeThroughNoalloc then some (Pgent.writeThroughNoalloc, modify)
  else if attrib = Attribute.flushD then some (Pgent.l4default, false)
  else if attrib = Attribute.flushI then some (Pgent.l4default, false)
  else none

/-- The label `Next_entry`. -/
def nextEntry (w : AttribWalk) : AttribWalk :=
  { w with pg := w.pg.next w.size 1, vaddr := w.vaddr + pageSizeBytes w.size, num := w.num - 1 }

/-- Down to the entry of the next smaller size for the address. -/
def descend (w : AttribWalk) : AttribWalk :=
  { w with
    size := w.size - 1
    pg := (w.pg.subtree w.size).next (w.size - 1) (pageTableIndex (w.size - 1) w.vaddr) }

/-- Into the table of smaller pages. -/
def enterSubtree (w : AttribWalk) : AttribWalk :=
  { w with
    size := w.size - 1, pg := w.pg.subtree w.size, num := pageTableSize (w.size - 1)
    rPg := Function.update w.rPg (w.size - 1) w.pg
    rNum := Function.update w.rNum (w.size - 1) (w.num - 1) }

/-- How an iteration ends: it goes on, or breaks, or returns with an error code. -/
inductive Step
  | go (w : AttribWalk) (pt : PageTable)
  | stop
  | error (code : Word)

/-- An entry that is a mapping. -/
def attribLeaf (sp : Space) (attrib : Word) (w : AttribWalk) (pt : PageTable) : Step :=
  if sp.isMappable w.vaddr then
    match newAttrib attrib w.modify with
    | some (att, modify) =>
      .go { w with modify }.nextEntry
        (if modify then pt.set w.pg ((pt.get w.pg).setAttrib att) else pt)
    | none => .error einvalidParam
  else .go w.nextEntry pt

/-- An iteration of the walk. -/
def attribStep (sp : Space) (attrib : Word) (pgsize : Nat) (w : AttribWalk) (pt : PageTable) :
    Step :=
  let e := pt.get w.pg
  if !Space.isUserArea w.vaddr then .stop
  else if pgsize < w.size then
    if !e.valid w.size then .stop
    else if e.subtree w.size then .go w.descend pt
    else .error einvalidFpage
  else if !e.valid w.size then .go w.nextEntry pt
  else if e.subtree w.size then .go w.enterSubtree pt
  else attribLeaf sp attrib w pt

/-- The loop of the walk: the error code, if there is one, and the page table; `none` when it is
still running. -/
def attribLoop (sp : Space) (attrib : Word) (pgsize : Nat) :
    Nat → AttribWalk → PageTable → Option (Option Word × PageTable)
  | 0, _, _ => none
  | fuel + 1, w, pt =>
    if w.num = 0 then some (none, pt)
    else
      match attribStep sp attrib pgsize w pt with
      | .go w pt => attribLoop sp attrib pgsize fuel w pt
      | .stop => some (none, pt)
      | .error code => some (some code, pt)

/-- Where the walk starts. -/
def start (fpage : Fpage) (num pgsize : Nat) : AttribWalk where
  size := PgSize.sizeMax
  pg := PgPtr.next ⟨.root, 0⟩ PgSize.sizeMax
    (pageTableIndex PgSize.sizeMax (fpage.addressWrapped fpage.getSizeLog2))
  vaddr := fpage.addressWrapped fpage.getSizeLog2
  num := 2 ^ (num - pageShift pgsize)
  modify := true
  rPg := fun _ => ⟨.root, 0⟩
  rNum := fun _ => 0

end AttribWalk

/-- `attrib_fpage`; `none` when the walk is still running after so many iterations. -/
def attribFpage (sp : Space) (fpage : Fpage) (attrib : Word) (fuel : Nat) (pt : PageTable) :
    Option (Option Word × PageTable) :=
  if fpage.getSizeLog2 < pageShift 0 then some (some einvalidFpage, pt)
  else
    let num := min fpage.getSizeLog2 (pageShift (PgSize.sizeMax + 1))
    let pgsize := findPgsize num PgSize.sizeMax
    AttribWalk.attribLoop sp attrib pgsize fuel (.start fpage num pgsize) pt

end L4Thread
