import L4Thread.Kernel.Ipc

/-!
# Checked register files

`extended_transfer` with its accesses to the message and buffer registers checked: the assertion of
`copy_mr`, at every access. The functions follow those of `L4Thread.Kernel.Ipc` of the same names,
with the two reads whose values play no role there.
-/

namespace L4Thread

/-- A place in a register file. -/
inductive Register
  | mr (index : Nat)
  | br (index : Nat)
  deriving DecidableEq

def Register.InRange : Register → Prop
  | .mr index => index < ipcNumMr
  | .br index => index < ipcNumBr

instance : DecidablePred Register.InRange
  | .mr _ => inferInstanceAs (Decidable (_ < _))
  | .br _ => inferInstanceAs (Decidable (_ < _))

/-- How a checked computation stops. -/
inductive AccessError
  | trap (t : Trap)
  | range (r : Register)
  deriving DecidableEq

/-- A computation of the kernel with checked register files. -/
abbrev Checked := TrapM AccessError KState

namespace Checked

open TrapM
open Kernel (XferResult)

def lift {α : Type} (x : Kernel α) : Checked α := fun s =>
  match x s with
  | .ok r => .ok r
  | .error t => .error (.trap t)

instance : MonadLift Kernel Checked := ⟨lift⟩

/-- A place is accessed. -/
def check (r : Register) : Checked Unit := if r.InRange then pure () else trap (.range r)

def getMr (p : TcbPtr) (index : Nat) : Checked Word := do
  check (.mr index)
  Kernel.getMr p index

def getBr (p : TcbPtr) (index : Nat) : Checked Word := do
  check (.br index)
  Kernel.getBr p index

def copyMr (dst src : TcbPtr) (index : Nat) : Checked Unit := do
  check (.mr index)
  Kernel.copyMr dst src index

/-- A string item at the head of the item loop. -/
def stringItem (src dst : TcbPtr) (x : Xfer) (srcItem : MsgItem) : Checked XferResult := do
  copyMr dst src x.srcIdx
  if !x.acceptStrings ∨ x.totalMrs < x.srcIdx + srcItem.getStringPtrCount then
    Kernel.messageOverflow src dst x
  else
    let srcAddr ← getMr src (x.srcIdx + 1)
    let dstItem : MsgItem := ⟨← getBr dst x.brIdx⟩
    if ipcNumBr < x.brIdx + dstItem.getStringPtrCount then Kernel.messageOverflow src dst x
    else
      let dstAddr ← getBr dst (x.brIdx + 1)
      if !dstItem.isStringItem then Kernel.messageOverflow src dst x
      else
        let c : StringCopy :=
          { srcItem, dstItem, srcAddr, dstAddr
            srcLen := BitVec.ofNat 64 srcItem.getStringLength, srcPtridx := 1
            dstLen := BitVec.ofNat 64 dstItem.getStringLength, dstPtridx := 1 }
        pure (.more { x with acceptStrings := dstItem.moreStrings, point := .string c })

/-- An iteration of the item loop; the flexpage of a map item is read before the receive window is
looked at. -/
def transferItem (src dst : TcbPtr) (x : Xfer) : Checked XferResult := do
  if x.srcIdx < x.totalMrs then
    let srcItem : MsgItem := ⟨← getMr src x.srcIdx⟩
    if srcItem.isMapItem ∨ srcItem.isGrantItem then
      check (.mr (x.srcIdx + 1))
      let acceptor : Acceptor := ⟨← getBr dst 0⟩
      if acceptor.getRcvWindow.isNilFpage then Kernel.messageOverflow src dst x
      else
        copyMr dst src x.srcIdx
        copyMr dst src (x.srcIdx + 1)
        pure (.more { x with srcIdx := x.srcIdx + 2 })
    else if srcItem.isStringItem then stringItem src dst x srcItem
    else Kernel.messageOverflow src dst x
  else Kernel.transferDone src x

/-- The copy loop up to the `memcpy` of `ipc_copy`. -/
def startCopy (src dst : TcbPtr) (x : Xfer) (c : StringCopy) : Checked XferResult := do
  check (.mr (x.srcIdx + c.srcPtridx))
  Kernel.startCopy src dst x c

/-- The loop that skips the current receive buffer; it reads the item behind the buffer also where
it stops. -/
def skipBuffer (dst : TcbPtr) : Nat → Nat → MsgItem → Checked (Nat × Bool)
  | 0, _, _ => trap (.trap .hang)
  | fuel + 1, brIdx, dstItem => do
    let brIdx := brIdx + dstItem.getStringPtrCount + 1
    if ipcNumBr ≤ brIdx then pure (brIdx, false)
    else
      check (.br brIdx)
      if dstItem.isStringCompound then skipBuffer dst fuel brIdx ⟨← getBr dst brIdx⟩
      else pure (brIdx, true)

/-- The copy loop when the send string has more data. -/
def nextBuffer (src dst : TcbPtr) (x : Xfer) (c : StringCopy) : Checked XferResult := do
  if c.dstLen ≠ 0 then pure (.more { x with point := .string c })
  else if c.dstPtridx < c.dstItem.getStringPtrCount then
    let dstAddr ← getBr dst (x.brIdx + c.dstPtridx + 1)
    let c :=
      { c with
        dstPtridx := c.dstPtridx + 1, dstAddr
        dstLen := BitVec.ofNat 64 c.dstItem.getStringLength }
    pure (.more { x with point := .string c })
  else if c.dstItem.isStringCompound then
    let brIdx := x.brIdx + c.dstPtridx + 1
    if ipcNumBr < brIdx + 1 then Kernel.messageOverflow src dst x
    else
      let dstItem : MsgItem := ⟨← getBr dst brIdx⟩
      let dstAddr ← getBr dst (brIdx + 1)
      if ipcNumBr < brIdx + dstItem.getStringPtrCount then Kernel.messageOverflow src dst x
      else
        let c :=
          { c with
            dstItem, dstAddr, dstPtridx := 1
            dstLen := BitVec.ofNat 64 dstItem.getStringLength }
        pure (.more { x with brIdx, point := .string c })
  else Kernel.messageOverflow src dst x

/-- The copy loop behind the `memcpy`. -/
def finishCopy (src dst : TcbPtr) (x : Xfer) (c : StringCopy) (copyLength len : Word) :
    Checked XferResult := do
  Kernel.modTcb src fun t =>
    { t with ipcCopy := { t.ipcCopy with copyLength := t.ipcCopy.copyLength + len } }
  let x := { x with totalLen := x.totalLen + len }
  if len < copyLength then Kernel.messageOverflow src dst x
  else
    let c :=
      { c with
        srcLen := c.srcLen - len, dstLen := c.dstLen - len
        srcAddr := c.srcAddr + len, dstAddr := c.dstAddr + len }
    if c.srcLen ≠ 0 then nextBuffer src dst x c
    else if c.srcPtridx < c.srcItem.getStringPtrCount then
      let srcAddr ← getMr src (x.srcIdx + c.srcPtridx + 1)
      nextBuffer src dst x
        { c with
          srcPtridx := c.srcPtridx + 1, srcAddr
          srcLen := BitVec.ofNat 64 c.srcItem.getStringLength }
    else if c.srcItem.isStringCompound then
      let x := { x with srcIdx := x.srcIdx + c.srcPtridx + 1 }
      if x.totalMrs < x.srcIdx + 1 then Kernel.messageOverflow src dst x
      else
        let srcItem : MsgItem := ⟨← getMr src x.srcIdx⟩
        let srcAddr ← getMr src (x.srcIdx + 1)
        if x.totalMrs < x.srcIdx + srcItem.getStringPtrCount then Kernel.messageOverflow src dst x
        else
          nextBuffer src dst x
            { c with
              srcItem, srcAddr, srcPtridx := 1
              srcLen := BitVec.ofNat 64 srcItem.getStringLength }
    else
      let (brIdx, more) ← skipBuffer dst ipcNumBr x.brIdx c.dstItem
      let x := { x with srcIdx := x.srcIdx + c.srcPtridx + 1, brIdx, point := .items }
      pure (.more { x with acceptStrings := x.acceptStrings && more })

/-- An iteration of the loop `extended_transfer` stands at. -/
def transferStep (src dst : TcbPtr) (x : Xfer) : Checked XferResult :=
  match x.point with
  | .items => transferItem src dst x
  | .string c => startCopy src dst x c
  | .copying c copyLength len => finishCopy src dst x c copyLength len

end Checked

end L4Thread
