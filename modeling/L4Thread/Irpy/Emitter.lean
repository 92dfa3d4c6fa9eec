import Mathlib.Logic.Function.Basic

/-!
# The emitted Python of a basic block

What `src/compiler/PyLLVMEmitter.cc` makes of a basic block: one statement for each instruction, on
the dictionary `ctx.stack` of the function's values. The name of a value is what LLVM prints for it
as an operand. Constants, and what the instructions behind the phis compute, are parameters: their
Python is a call to the evaluator. The terminator is left out; it returns what the next block does.
-/

namespace L4Thread.Irpy

/-! ## The LLVM side -/

/-- An operand. The other kinds of values print to calls that do not read the stack. -/
inductive LlvmValue (κ : Type)
  | instruction (name : String)
  | argument (name : String)
  | constant (c : κ)

structure PhiNode (κ : Type) where
  name : String
  /-- The values, by the block they come from. -/
  incoming : List (String × LlvmValue κ)

/-- An instruction that is not a phi; a store, for one, has no result. -/
structure Instruction (ι : Type) where
  result : Option String
  op : ι

/-- A basic block, which starts with its phis; they have values for the predecessors of the block
and for no others. -/
structure BasicBlock (κ ι : Type) where
  preds : List String
  phis : List (PhiNode κ)
  instructions : List (Instruction ι)
  incoming_iff : ∀ phi ∈ phis, ∀ bb, (∃ val, (bb, val) ∈ phi.incoming) ↔ bb ∈ preds

/-! ## The Python side -/

/-- An operand: `ctx.stack["key"]`, or a call. -/
inductive PyExpr (κ : Type)
  | stack (key : String)
  | call (c : κ)

/-- `ctx.stack["dst"] = {..}[pred]()`, or `ctx.stack["dst"] = irpy.op(..)` with or without its
target. -/
inductive PyStmt (κ ι : Type)
  | phi (dst : String) (phimap : List (String × PyExpr κ))
  | instruction (dst : Option String) (op : ι)

/-! ## The emitter -/

variable {κ ι ν : Type}

namespace PyInstVisitor

/-- `name`: the printed name without what Python identifiers cannot have. -/
def name (printed : String) : String := printed.map fun c => if c = '.' ∨ c = '-' then '_' else c

/-- `get`. -/
def get : LlvmValue κ → PyExpr κ
  | .instruction i => .stack (name i)
  | .argument a => .stack (name a)
  | .constant c => .call c

def visitPHINode (phi : PhiNode κ) : PyStmt κ ι :=
  .phi (name phi.name) (phi.incoming.map fun (bb, val) => (name bb, get val))

/-- The visitors of the other instructions. -/
def visitInstruction (i : Instruction ι) : PyStmt κ ι := .instruction (i.result.map name) i.op

/-- What a branch or a switch of the block passes to the next block as `pred`. -/
def currBb (bb : String) : String := name bb

end PyInstVisitor

def emitBasicBlock (b : BasicBlock κ ι) : List (PyStmt κ ι) :=
  b.phis.map PyInstVisitor.visitPHINode ++ b.instructions.map PyInstVisitor.visitInstruction

/-! ## Execution -/

/-- `ctx.stack`. -/
abbrev PyStack (ν : Type) := String → Option ν

/-- The entry of a dictionary literal: the last one with the key. -/
def dictLookup {β : Type} (entries : List (String × β)) (key : String) : Option β :=
  (entries.reverse.find? fun e => e.1 == key).map Prod.snd

/-- The value of an operand; `constant` gives the values of constants. -/
def PyExpr.eval (constant : κ → ν) (stack : PyStack ν) : PyExpr κ → Option ν
  | .stack key => stack key
  | .call c => some (constant c)

/-- `none` is an exception; `op` gives the results of the evaluator's calls. -/
def PyStmt.exec (constant : κ → ν) (op : ι → PyStack ν → Option ν) (pred : String)
    (stack : PyStack ν) : PyStmt κ ι → Option (PyStack ν)
  | .phi dst phimap => do
    let val ← dictLookup phimap pred
    let v ← val.eval constant stack
    pure (Function.update stack dst (some v))
  | .instruction dst i => do
    let v ← op i stack
    match dst with
    | none => pure stack
    | some dst => pure (Function.update stack dst (some v))

/-- The body of a block, called with `pred`. -/
def execBlock (constant : κ → ν) (op : ι → PyStack ν → Option ν) (pred : String)
    (stack : PyStack ν) (body : List (PyStmt κ ι)) : Option (PyStack ν) :=
  body.foldlM (fun stack stmt => stmt.exec constant op pred stack) stack

end L4Thread.Irpy
