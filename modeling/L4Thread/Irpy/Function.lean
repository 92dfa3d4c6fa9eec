import L4Thread.Irpy.Emitter
import L4Thread.Lib.Llvm

/-!
# Functions of integers

LLVM functions that compute with integers and call each other, what the language makes of them, and
the Python that `src/compiler/PyLLVMEmitter.cc` emits for them: a Python function with one local
function for each basic block, which returns what the next block returns.
-/

namespace L4Thread.Irpy

open Llvm

/-! ## The LLVM side -/

/-- An integer with its width. -/
abbrev LlvmInt := Σ w : Nat, BitVec w

abbrev Operand := LlvmValue LlvmInt

/-- An instruction on integers, or a call with the widths of the arguments. -/
inductive IntOp
  | instr {w : Nat} (i : Instr (fun _ => Operand) w)
  | call (callee : String) (args : List (Nat × Operand))

inductive Terminator
  | ret (val : Option Operand)
  | br (dest : String)
  | condBr (cond : Operand) (iftrue iffalse : String)
  | switch {w : Nat} (val : Operand) (default : String) (cases : List (BitVec w × String))
  | unreachable

structure LlvmBlock where
  block : BasicBlock LlvmInt IntOp
  term : Terminator

/-- The arguments with their widths, and the blocks by their names. -/
structure LlvmFunction where
  args : List (String × Nat)
  blocks : List (String × LlvmBlock)
  entry : String

abbrev LlvmModule := List (String × LlvmFunction)

/-! ## What a function computes -/

abbrev Registers := String → Option LlvmInt

namespace LlvmValue

variable (regs : Registers)

def read : Operand → Option LlvmInt
  | .instruction x | .argument x => regs x
  | .constant c => some c

/-- The value of an operand of a width. -/
def readAs (w : Nat) (val : Operand) : Option (BitVec w) := do
  let v ← val.read regs
  if h : v.1 = w then some (h ▸ v.2) else none

end LlvmValue

/-- The registers of a call. -/
def bindArgs (regs : Registers) : List (String × Nat) → List LlvmInt → Option Registers
  | [], [] => some regs
  | (x, w) :: args, v :: vs =>
    if v.1 = w then bindArgs (Function.update regs x (some v)) args vs else none
  | _, _ => none

/-- The phis take their values at once. -/
def execPhis (pred : Option String) (regs : Registers) (phis : List (PhiNode LlvmInt)) :
    Option Registers :=
  phis.foldlM (fun regs' phi => do
    let val ← phi.incoming.lookup (← pred)
    let v ← val.read regs
    pure (Function.update regs' phi.name (some v))) regs

/-- An instruction behind the phis; `call` gives what the functions return. -/
def execOp (call : String → List LlvmInt → Option (Option LlvmInt)) (regs : Registers)
    (i : Instruction IntOp) : Option Registers :=
  match i.op with
  | .instr (w := w) op => do
    let v ← (← op.mapM fun {w} val => val.readAs regs w).exec
    match i.result with
    | none => pure regs
    | some x => pure (Function.update regs x (some ⟨w, v⟩))
  | .call callee args => do
    let vs ← args.mapM fun a => do return (⟨a.1, ← a.2.readAs regs a.1⟩ : LlvmInt)
    match i.result, ← call callee vs with
    | none, _ => pure regs
    | some x, some v => pure (Function.update regs x (some v))
    | some _, none => none

/-- The result of a function from the start of a block on, within so many blocks on the way to it;
`none` if there is no defined one. -/
def LlvmModule.exec (m : LlvmModule) : Nat → LlvmFunction → String → Option String → Registers →
    Option (Option LlvmInt)
  | 0, _, _, _, _ => none
  | n + 1, f, bb, pred, regs => do
    let b ← f.blocks.lookup bb
    let regs ← execPhis pred regs b.block.phis
    let regs ← b.block.instructions.foldlM (execOp fun callee vs => do
      let g ← m.lookup callee
      exec m n g g.entry none (← bindArgs (fun _ => none) g.args vs)) regs
    match b.term with
    | .ret none => some none
    | .ret (some val) => do return some (← val.read regs)
    | .br dest => exec m n f dest (some bb) regs
    | .condBr cond iftrue iffalse => do
      let c ← cond.readAs regs 1
      exec m n f (if c = 1 then iftrue else iffalse) (some bb) regs
    | .switch (w := w) val default cases => do
      let v ← val.readAs regs w
      exec m n f ((cases.lookup v).getD default) (some bb) regs
    | .unreachable => none

/-- The result of a call. -/
def LlvmModule.call (m : LlvmModule) (n : Nat) (callee : String) (vs : List LlvmInt) :
    Option (Option LlvmInt) := do
  let g ← m.lookup callee
  m.exec n g g.entry none (← bindArgs (fun _ => none) g.args vs)

/-! ## The Python side -/

/-- The last statement of a block function; `pred` is the name that the next block gets. -/
inductive PyTerm
  | ret (e : Option (PyExpr LlvmInt))
  | goto (bb pred : String)
  | branch (cond : PyExpr LlvmInt) (iftrue iffalse pred : String)
  | switch {w : Nat} (e : PyExpr LlvmInt) (default : String) (cases : List (BitVec w × String))
    (pred : String)
  | unreachable

structure PyBlock where
  body : List (PyStmt LlvmInt IntOp)
  term : PyTerm

/-- The keys of the arguments, and the local functions; a function hides an earlier one of the same
name. -/
structure PyFunction where
  args : List (String × Nat)
  blocks : List (String × PyBlock)
  entry : String

abbrev PyModule := List (String × PyFunction)

/-! ## The emitter -/

namespace PyInstVisitor

/-- The name of a block function, without `bb_`: the printed name without its first character. -/
def blockName (printed : String) : String :=
  match printed.toList with
  | c :: cs => name (if c = '%' ∨ c = '@' then String.ofList cs else printed)
  | [] => printed

/-- `visitReturnInst`, `visitBranchInst`, `visitSwitchInst` and `visitUnreachableInst` in the block
`bb`. -/
def visitTerminator (bb : String) : Terminator → PyTerm
  | .ret val => .ret (val.map get)
  | .br dest => .goto (blockName dest) (currBb bb)
  | .condBr cond iftrue iffalse =>
    .branch (get cond) (blockName iftrue) (blockName iffalse) (currBb bb)
  | .switch val default cases =>
    .switch (get val) (blockName default) (cases.map fun x => (x.1, blockName x.2)) (currBb bb)
  | .unreachable => .unreachable

end PyInstVisitor

open PyInstVisitor

def emitFunction (f : LlvmFunction) : PyFunction where
  args := f.args.map fun a => (name a.1, a.2)
  blocks := f.blocks.map fun b =>
    (blockName b.1, ⟨emitBasicBlock b.2.block, visitTerminator b.1 b.2.term⟩)
  entry := blockName f.entry

/-- The functions by the names they have among the globals of the context. -/
def emitModule (m : LlvmModule) : PyModule := m.map fun f => (name f.1, emitFunction f.2)

end L4Thread.Irpy
