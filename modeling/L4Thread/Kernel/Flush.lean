import L4Thread.Kernel.Mapping

/-!
# Revoking mappings

`mdb_flush` and `remove_map` of `mapping.cc`. The page table entries, each with its link node, are
maps from addresses. The space of a node is read for the TLB only, which is not part of the state,
and the functions for reference bits that do nothing on this processor are left out. There is no
result where a null pointer is dereferenced, a page size falls below the smallest one, or a buffer
is freed that is not in use.
-/

namespace L4Thread

namespace Pgent

/-- `reference_bits`. -/
def referenceBits (e : Pgent) : BitVec 3 :=
  if e.low.getLsbD 2 then 6 else if e.low.getLsbD 1 then 4 else 0

/-- `revoke_rights`. -/
def revokeRights (e : Pgent) (rwx : Word) : Pgent :=
  if rwx.getLsbD 1 then { e with low := e.low &&& ~~~4 } else e

/-- `clear`. -/
def cleared (e : Pgent) (size : Nat) : Pgent :=
  if size = PgSize.size4m ∨ size = PgSize.size4g then .zero
  else { e with isValid := false, isSubtree := true }

end Pgent

/-- `hw_pgsize`. -/
def hwPgsize (mdbPgsize : Nat) : Nat := hwPgshifts.findIdx (mdbPgshift mdbPgsize ≤ ·)

/-- `get_nextdual` and `get_dual`. -/
def NextLink.getDual (l : NextLink) : Word := if l.isNextBoth then l.ptr else 0

namespace Mdb

/-- `mdb_free_buffer`. -/
def freeBuffer (a : Word) (m : Mdb) : Option Mdb :=
  if m.used a then some { m with used := Function.update m.used a false } else none

/-- `get_prevmap` and `get_prevroot`. -/
def prevPlace (m : Mdb) (p pg : Word) : MdbPlace :=
  let prev := (m.node p).prev ^^^ pg
  if (m.node p).isPrevRoot then .root prev else .node prev

/-- `remove_map`. -/
def removeMap (prev : MdbPlace) (cmap : Word) (m : Mdb) : Option Mdb := do
  let nmap := m.getMap (m.node cmap).next
  if prev.ptr = 0 then none
  else
    let l := m.next prev
    let m ←
      if l.isNextMap && !l.isNextRoot then some (m.setNext prev (.map nmap))
      else if l.getDual = 0 then none
      else if nmap ≠ 0 then some (m.setDual l.ptr { m.dual l.ptr with map := nmap })
      else (m.setNext prev (.root (m.dual l.ptr).root)).freeBuffer l.ptr
    let m ← m.freeBuffer cmap
    return if nmap = 0 then m
      else m.setBacklink nmap prev.isRoot prev.ptr (m.getPgent nmap cmap)

end Mdb

/-- The mapping database with the reference bits of its nodes, and the page table entries. -/
structure FlushState where
  mdb : Mdb
  rwx : Word → BitVec 3
  entry : Word → Pgent
  link : Word → Word

/-- The locals of `mdb_flush`. -/
structure FlushWalk where
  fMap : Word
  fPg : Word
  fPgsize : Nat
  root : Word
  rcnt : Nat
  rwx : BitVec 3
  unmapSelf : Bool
  rPrev : Nat → MdbPlace
  rNmap : Nat → Word
  rRoot : Nat → Word
  rRcnt : Nat → Nat

/-- What `mdb_flush` is asked for. -/
structure FlushRequest where
  fMap : Word
  fPg : Word
  fHwpgsize : Nat
  fAddr : Word
  tHwpgsize : Nat
  fp : Fpage
  unmapSelf : Bool
  deriving DecidableEq

namespace FlushRequest

variable (r : FlushRequest)

def fPgsize : Nat := mdbPgsize r.fHwpgsize

def tPgsize : Nat := mdbPgsize r.tHwpgsize

/-- The rights of the mapping of the current node are revoked. If these are all, the node is
removed. What follows hangs below the place that is returned. -/
def revoke (w : FlushWalk) (s : FlushState) : Option (MdbPlace × FlushWalk × FlushState) :=
  let prev := s.mdb.prevPlace w.fMap w.fPg
  if w.unmapSelf then
    let e := s.entry w.fPg
    let w := { w with rwx := w.rwx ||| e.referenceBits }
    let s :=
      { s with rwx := Function.update s.rwx w.fMap (s.rwx w.fMap ||| e.referenceBits) }
    if r.fp.isRwx then do
      let mdb ← s.mdb.removeMap prev w.fMap
      let entry := Function.update s.entry w.fPg (e.cleared (hwPgsize w.fPgsize))
      return (prev, w, { s with mdb, entry, link := Function.update s.link w.fPg 0 })
    else
      let entry := Function.update s.entry w.fPg (e.revokeRights r.fp.getRwx)
      some (.node w.fMap, w, { s with entry })
  else some (.node w.fMap, w, s)

/-- Up from an array of roots. -/
def ascend (w : FlushWalk) (s : FlushState) : Option (FlushWalk × FlushState) := do
  let size := w.fPgsize
  let mdb ←
    if r.fp.isRwx then
      s.mdb.freeBuffer (w.root - BitVec.ofNat 64 (rootnodeSize * (mdbArraysize size - 1)))
    else some s.mdb
  let fMap := w.rNmap size
  let fPg := if fMap = 0 then w.fPg else mdb.getPgent fMap (w.rPrev size).ptr
  let w := { w with fMap, fPg, fPgsize := size + 1, root := w.rRoot size, rcnt := w.rRcnt size }
  return (w, { s with mdb })

/-- The next node behind a place: in the array of roots that the last node had, the next mapping,
or behind the current array. -/
def proceed (prev : MdbPlace) (dual nroot nmap : Word) (w : FlushWalk) (s : FlushState) :
    Option (FlushWalk × FlushState) :=
  if nroot ≠ 0 then
    if w.fPgsize = 0 then none
    else
      let size := w.fPgsize - 1
      if size < r.tPgsize then do
        let mdb ← if dual ≠ 0 ∧ r.fp.isRwx ∧ w.unmapSelf then s.mdb.freeBuffer dual else some s.mdb
        let w :=
          { w with
            fMap := 0, fPgsize := size, rcnt := mdbArraysize size
            root := nroot - BitVec.ofNat 64 rootnodeSize
            rPrev := Function.update w.rPrev size prev
            rNmap := Function.update w.rNmap size nmap
            rRoot := Function.update w.rRoot size w.root
            rRcnt := Function.update w.rRcnt size w.rcnt }
        return (w, { s with mdb })
      else
        let r := nroot + BitVec.ofNat 64 (rootnodeSize * mdbGetIndex size r.fAddr)
        some ({ w with
          fMap := 0, fPgsize := size, rcnt := 1, root := r - BitVec.ofNat 64 rootnodeSize }, s)
  else if nmap ≠ 0 then
    some ({ w with fMap := nmap, fPg := s.mdb.getPgent nmap prev.ptr }, s)
  else if w.fPgsize < r.tPgsize ∧ w.root ≠ 0 then r.ascend w s
  else some ({ w with fMap := 0 }, s)

/-- The loop over an array of roots, up to the next node. -/
def scan : Nat → FlushWalk → FlushState → Option (FlushWalk × FlushState)
  | 0, _, _ => none
  | fuel + 1, w, s =>
    if w.fMap = 0 ∧ 0 < w.rcnt then
      let root := w.root + BitVec.ofNat 64 rootnodeSize
      let rcnt := w.rcnt - 1
      let l := s.mdb.root root
      let fMap := s.mdb.getMap l
      if s.mdb.getRoot l ≠ 0 then
        if w.fPgsize = 0 then none
        else
          let size := w.fPgsize - 1
          let w :=
            { w with
              fMap := 0, fPgsize := size, rcnt := mdbArraysize size
              rPrev := Function.update w.rPrev size (.root root)
              rNmap := Function.update w.rNmap size fMap
              rRoot := Function.update w.rRoot size root
              rRcnt := Function.update w.rRcnt size rcnt }
          -- the array is read off the dual node, also where there is none
          if l.getDual = 0 then none
          else do
            let w :=
              { w with root := (s.mdb.dual l.getDual).root - BitVec.ofNat 64 rootnodeSize }
            let mdb ←
              if r.fp.isRwx then
                (s.mdb.setNext (.root root) (.map fMap)).freeBuffer l.getDual
              else some s.mdb
            scan fuel w { s with mdb }
      else
        let fPg := if fMap = 0 then w.fPg else s.mdb.getPgent fMap root
        scan fuel { w with root, rcnt, fMap, fPg } s
    else some (w, s)

/-- The loop over the nodes. -/
def flushLoop (startdepth : BitVec 8) : Nat → FlushWalk → FlushState → Option (BitVec 3 × FlushState)
  | 0, _, _ => none
  | fuel + 1, w, s => do
    let l := (s.mdb.node w.fMap).next
    let nroot := s.mdb.getRoot l
    let nmap := s.mdb.getMap l
    let (prev, w, s) ← r.revoke w s
    let (w, s) ← r.proceed prev l.getDual nroot nmap w s
    let (w, s) ← r.scan (fuel + 1) w s
    let w := if w.fPgsize ≤ r.tPgsize then { w with unmapSelf := true } else w
    if w.fMap ≠ 0 ∧ startdepth < (s.mdb.node w.fMap).depth then flushLoop startdepth fuel w s
    else some (w.rwx, s)

/-- The locals before the loop. -/
def walk (rwx : BitVec 3) : FlushWalk where
  fMap := r.fMap
  fPg := r.fPg
  fPgsize := r.fPgsize
  root := 0
  rcnt := 0
  rwx := rwx
  unmapSelf := r.unmapSelf
  rPrev _ := .root 0
  rNmap _ := 0
  rRoot _ := 0
  rRcnt _ := 0

/-- `mdb_flush`: the reference bits of the mappings. -/
def mdbFlush (fuel : Nat) (s : FlushState) : Option (BitVec 3 × FlushState) :=
  let startdepth := (s.mdb.node r.fMap).depth
  if r.unmapSelf then
    let rwx := s.rwx r.fMap ||| (s.entry r.fPg).referenceBits
    r.flushLoop startdepth fuel (r.walk rwx) { s with rwx := Function.update s.rwx r.fMap 0 }
  else r.flushLoop startdepth fuel (r.walk 0) s

end FlushRequest

end L4Thread
