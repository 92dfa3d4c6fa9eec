import L4Thread.Irpy.Emitter
import L4Thread.Irpy.Eval

/-!
# Struct values

`insertvalue` and `extractvalue`: what `genPyCallFromInstruction` of `PyLLVMEmitter.cc` emits for
them, and `insert_value` and `extract_value` of `z3eval.py`. A struct value is a pointer to a
reference of its own. A type stands for what `itypes.parse_type` makes of the printed type: an
exception, or a type of the evaluator.
-/

namespace L4Thread.Irpy

open Smt

/-- `itypes.parse_type (ctx, '..')`. -/
abbrev PyType := Except Exc Ty

/-- The constants among the operands. -/
inductive Constant
  | int (value width : Nat)
  | undef (type : PyType)
  | aggregateZero
  | struct

/-! ## The emitter -/

/-- The methods that are called. -/
inductive Method
  | insertValue
  | extractValue

/-- An instruction as LLVM has it. The indices are no operands. -/
structure AggregateInst where
  dst : String
  method : Method
  type : PyType
  operands : List (LlvmValue Constant × PyType)
  indices : List Nat

def AggregateInst.insertvalue (dst : String) (type : PyType) (agg val : LlvmValue Constant)
    (valType : PyType) (indices : List Nat) : AggregateInst where
  dst := dst
  method := .insertValue
  type := type
  operands := [(agg, type), (val, valType)]
  indices := indices

def AggregateInst.extractvalue (dst : String) (type : PyType) (agg : LlvmValue Constant)
    (aggType : PyType) (indices : List Nat) : AggregateInst where
  dst := dst
  method := .extractValue
  type := type
  operands := [(agg, aggType)]
  indices := indices

/-- `ctx.stack["dst"] = irpy.method(ctx, type, arg, type, ..)`. -/
structure PyCall where
  dst : String
  method : Method
  type : PyType
  args : List (PyExpr Constant × PyType)

/-- `genPyCallFromInstruction`: the operands with their types, and nothing else. -/
def PyInstVisitor.genPyCallFromInstruction (i : AggregateInst) : PyCall where
  dst := name i.dst
  method := i.method
  type := i.type
  args := i.operands.map fun (val, type) => (get val, type)

/-! ## The evaluator -/

/-- An argument: `constant_aggregate_zero` returns a string. -/
inductive PyArg
  | obj (o : Obj)
  | text

/-- `ctx.stack`. -/
def Ctx.stack (c : Ctx) : Dict String Obj := c.locals.getLast?.getD ∅

/-- `ctx.stack["key"]`. -/
def stackGet (key : String) : Py Obj := do
  match (← get).stack.lookup key with
  | some o => pure o
  | none => throw .key

/-- `ctx.stack["key"] = o`. -/
def stackSet (key : String) (o : Obj) : Py Unit :=
  modify fun c => { c with locals := c.locals.dropLast ++ [c.stack.insert key o] }

variable (P : Lib)

/-- `undef`, which is `get_poison`. -/
def undef (type : Ty) : Py Obj :=
  match type with
  | .int w => do return .expr (← getPoison w)
  | .struct .. | .pointer _ => do return .ptr (← freshPtr P (← freshName "poison") type)
  | _ => throw .assertion

/-- The calls for constants. There is no method for a constant struct. -/
def Constant.eval : Constant → Py PyArg
  | int value width => pure (.obj (.expr (constantInt value width)))
  | undef type => do return .obj (← Irpy.undef P (← ofExcept type))
  | aggregateZero => pure .text
  | struct => throw .attribute

def PyExpr.evalArg : PyExpr Constant → Py PyArg
  | .stack key => do return .obj (← stackGet key)
  | .call c => c.eval P

/-- The arguments, each before its type. -/
def evalArgs : List (PyExpr Constant × PyType) → Py (List (PyArg × Ty))
  | [] => pure []
  | (e, type) :: args => do
    let a ← e.evalArg P
    let type ← ofExcept type
    return (a, type) :: (← evalArgs args)

def Ty.isStruct : Ty → Bool
  | struct .. => true
  | _ => false

def Ty.isInt : Ty → Bool
  | int _ => true
  | _ => false

/-- `insert_value`: the struct that it is given is not used. -/
def insertValue (returnType : Ty) (target : Obj) (targetType : Ty) : Py Obj := do
  check (returnType.isStruct && targetType.isInt)
  let value ← freshPtr P (← freshName "insert_value") returnType
  let field ← value.getelementptr P [.bvVal 64 0] value.type
  field.write P target
  pure (.ptr value)

/-- `extract_value`. -/
def extractValue (returnType : Ty) : PyArg → Py Obj
  | .obj (.ptr p) => do (← p.getelementptr P [.bvVal 64 0] returnType).read P
  | .obj (.bitcast _ type _) => if returnType.eq type then throw .runtime else throw .assertion
  | _ => throw .attribute

/-- The call of a method. A string is never an integer operand. -/
def PyCall.call (method : Method) (type : Ty) (args : List (PyArg × Ty)) : Py Obj :=
  match method, args with
  | .insertValue, [_, (.obj target, targetType)] => insertValue P type target targetType
  | .extractValue, [(target, _)] => extractValue P type target
  | _, _ => throw .typeError

def PyCall.exec (s : PyCall) : Py Unit := do
  let type ← ofExcept s.type
  let args ← evalArgs P s.args
  stackSet s.dst (← PyCall.call P s.method type args)

/-- The emitted Python of a sequence of instructions. -/
def execAggregates : List AggregateInst → Py Unit
  | [] => pure ()
  | i :: is => do
    (PyInstVisitor.genPyCallFromInstruction i).exec P
    execAggregates is

end L4Thread.Irpy
