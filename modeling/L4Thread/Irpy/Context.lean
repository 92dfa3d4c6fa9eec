import L4Thread.Lib.Smt
import Mathlib.Data.List.AList

/-!
# Contexts of the symbolic evaluator

The values that the evaluator of `src/libirpy` works on (`itypes.py`, `datatypes.py`), and the
context it keeps (`ctx.py`). A Python closure over memory is the data it captures: `partial_update`
and the two functions of `util.If`. What the evaluator uses of Python and of the solver's interface
is the parameter `Lib`.
-/

namespace L4Thread.Irpy

open Smt

/-! ## Types -/

/-- `itypes.py`. A struct may have a size of its own from the debug information. Function types are
only compared. -/
inductive Ty
  | void
  | int (w : Nat)
  | struct (name : String) (fields : List Ty) (size : Option Nat)
  | array (len : Nat) (elem : Ty)
  | pointer (target : Ty)
  | function (repr : String)

namespace Ty

/-- `__eq__`: structs are compared by name. -/
def eq : Ty → Ty → Bool
  | void, void => true
  | int v, int w => v == w
  | struct n _ _, struct m _ _ => n == m
  | array n s, array m t => n == m && s.eq t
  | pointer s, pointer t => s.eq t
  | function r, function q => r == q
  | _, _ => false

theorem int_eq_int {v w : Nat} : (int v).eq (int w) = (v == w) := rfl

mutual

def size : Ty → Nat
  | .int w => w
  | .struct _ fields (some 0) | .struct _ fields none => sizes fields
  | .struct _ _ (some n) => n
  | .array n t => n * size t
  | .pointer _ => 64
  | _ => 0

/-- The sum of the sizes. -/
def sizes : List Ty → Nat
  | [] => 0
  | t :: ts => size t + sizes ts

end

def deref : Ty → Ty
  | array _ t | pointer t => t
  | t => t

end Ty

/-! ## Objects -/

/-- A term of the solver, of any sort: a `BoolRef` or a `BitVecRef`. -/
structure Value where
  sort : Srt
  term : Term sort
  deriving DecidableEq

/-- `Reference`. -/
structure Reference where
  name : String
  type : Ty

/-- A tuple of indices for each `getelementptr`. -/
abbrev Geps := List (List Value)

/-- `Pointer`: into a reference, uninitialised, or one of two pointers by a condition. -/
inductive Pointer
  | base (ref : Reference) (geps : Geps) (type : Ty)
  | raw (name : Term (.bv 64)) (type : Ty)
  | ite (cond : Term .bool) (p1 p2 : Pointer) (name : Term (.bv 64)) (type : Ty)

/-- A Python object in a dictionary of the context. The callable ones are a function of the program,
a function symbol of the solver, `partial_update (old, args, value)`, the conditional function of
`util.If` and the constant function it makes of an object that is not callable. -/
inductive Obj
  | expr (v : Value)
  | ptr (p : Pointer)
  | bitcast (p : Pointer) (type : Ty) (geps : List (List Value × Ty))
  | func (name : String)
  | decl (f : String) (arity : Nat) (s : Srt)
  | update (old : Obj) (args : List Value) (value : Obj)
  | lam (cond : Term .bool) (a b : Obj)
  | const (v : Obj)

/-- What Python and the solver's interface decide: how terms are printed, and when two objects are
the same one. -/
structure Lib extends Solver where
  str : Geps → String
  strTerm : Term (.bv 64) → String
  is : Obj → Obj → Bool
  eq_of_is {a b : Obj} : is a b = true → a = b

/-- How a symbol or a numeral is printed. -/
def printTerm : {s : Srt} → Term s → String
  | _, .var name _ => name
  | .bv _, .lit v => toString v.toNat
  | _, _ => "term"

/-- The solver that looks at all assignments. Of the objects only functions are never copied. -/
noncomputable def Lib.ideal : Lib where
  toSolver := Solver.ideal
  str gs := toString (gs.map fun g => g.map fun v => printTerm v.term)
  strTerm := printTerm
  is
    | .func f, .func g => f == g
    | _, _ => false
  eq_of_is {a b} h := by
    cases a with
    | func f =>
      cases b with
      | func g => rw [eq_of_beq h]
      | _ => cases h
    | _ => cases h

/-- The solver that evaluates what has no symbols. -/
noncomputable def Lib.folding : Lib := { Lib.ideal with toSolver := Solver.folding }

namespace Value

def ofTerm {s : Srt} (t : Term s) : Value := ⟨s, t⟩

/-- `size`, patched into both classes. -/
def size (v : Value) : Nat :=
  match v.sort with
  | .bv w => w
  | _ => 1

/-- `z3.BitVecVal`. -/
def bvVal (w : Nat) (n : Nat) : Value := ⟨.bv w, .lit (BitVec.ofNat w n)⟩

/-- A numeral is of a class of its own. -/
def isNumeral : Value → Bool
  | ⟨.bv _, .lit _⟩ => true
  | _ => false

/-- The same class: `BoolRef`, `BitVecRef` or `BitVecNumRef`. -/
def sameClass (a b : Value) : Bool :=
  (a.sort == .bool) == (b.sort == .bool) && a.isNumeral == b.isNumeral

end Value

def null : Term (.bv 64) := .var "null" (.bv 64)

namespace Pointer

variable (P : Lib)

/-- `_name`. -/
def name : Pointer → Term (.bv 64)
  | base ref geps _ => .var (ref.name ++ P.str geps) (.bv 64)
  | raw n _ | ite _ _ _ n _ => n

def type : Pointer → Ty
  | base _ _ t | raw _ t | ite _ _ _ _ t => t

end Pointer

/-! ## Exceptions -/

/-- The classes of exceptions the evaluator raises itself or gets from the solver's interface. -/
inductive Exc
  | assertion
  | z3
  | typeError
  | attribute
  | value
  | index
  | runtime
  | key
  | unreachable
  deriving DecidableEq

/-! ## Comparison and conditional of objects -/

/-- `a == b` as a Python boolean: the solver's interface compares the syntax, and raises an exception
for terms of different sorts. -/
def termEq (a b : Value) : Except Exc Bool :=
  if a.sort = b.sort then .ok (decide (a = b)) else .error .z3

/-- `==` of two tuples of indices: their elements are compared before their lengths. -/
def tupleEq : List Value → List Value → Except Exc Bool
  | [], [] => .ok true
  | a :: as, b :: bs => do if ← termEq a b then tupleEq as bs else pure false
  | _, _ => .ok false

/-- `==` of two lists of the same length. -/
def listEq {α : Type} (eq : α → α → Except Exc Bool) : List α → List α → Except Exc Bool
  | a :: as, b :: bs => do if ← eq a b then listEq eq as bs else pure false
  | _, _ => .ok true

def gepsEq (gs hs : Geps) : Except Exc Bool :=
  if gs.length = hs.length then listEq tupleEq gs hs else .ok false

/-- `==` of the indices of two bitcast pointers. -/
def castGepsEq (gs hs : List (List Value × Ty)) : Except Exc Bool :=
  if gs.length = hs.length then
    listEq (fun g h => do if ← tupleEq g.1 h.1 then pure (g.2.eq h.2) else pure false) gs hs
  else .ok false

def Reference.eq (r q : Reference) : Bool := r.type.eq q.type && r.name == q.name

section

variable (P : Lib)

/-- `Pointer.__eq__`, as a Python boolean. A conditional pointer is not initialised, so that it is
compared by its name. -/
def Pointer.eq : Pointer → Pointer → Except Exc Bool
  | .base r gs s, .base q hs t => do
    if ← gepsEq gs hs then pure (r.eq q && s.eq t) else pure false
  | p, q => .ok (decide (p.name P = q.name P))

/-- `definitely_equal`. -/
def definitelyEqual : Obj → Obj → Except Exc Bool
  | .expr a, .expr b =>
    if !a.sameClass b then .ok false
    else if h : a.sort = b.sort then .ok ((P.simplify (Term.eq a.term (h ▸ b.term))).isLit true)
    else .error .z3
  | .ptr p, .ptr q => if P.is (.ptr p) (.ptr q) then .ok true else p.eq P q
  | .bitcast p s gs, .bitcast q t hs =>
    if P.is (.bitcast p s gs) (.bitcast q t hs) then .ok true
    else if s.eq t then do if ← p.eq P q then castGepsEq gs hs else pure false
    else .ok false
  | a, b => .ok (P.is a b)

/-- `util.If` of two terms. -/
def ifValue (cond : Term .bool) (a b : Value) : Except Exc Value :=
  let cond := P.simplify cond
  if (P.simplify cond).isLit true then .ok a
  else if (P.simplify cond).isLit false then .ok b
  else if a.size ≠ b.size then .error .assertion
  else do
    if ← definitelyEqual P (.expr a) (.expr b) then pure a
    else if h : a.sort = b.sort then pure ⟨a.sort, .ite cond a.term (h ▸ b.term)⟩
    else throw .z3

/-- The name of a conditional pointer. -/
def ifName (cond : Term .bool) (a : Term (.bv 64)) (b : Value) : Except Exc (Term (.bv 64)) := do
  let v ← ifValue P cond ⟨_, a⟩ b
  if h : v.sort = .bv 64 then pure (h ▸ v.term) else throw .z3

/-- `Pointer.ite`. -/
def Pointer.iteObj (p1 : Pointer) (other : Obj) (cond : Term .bool) : Except Exc Pointer :=
  match other with
  | .expr ⟨.bv w, t⟩ => do
    let name ← ifName P cond (p1.name P) ⟨.bv w, t⟩
    if h : w = 64 then pure (.ite cond p1 (.raw (h ▸ t) p1.type) name p1.type) else throw .assertion
  | .ptr p2 => do
    let name ← ifName P cond (p1.name P) ⟨_, p2.name P⟩
    pure (.ite cond p1 p2 name p1.type)
  | _ => throw .attribute

end

namespace Obj

/-- A Python function or a function symbol. -/
def isFunction : Obj → Bool
  | func _ | decl _ _ _ | update _ _ _ | lam _ _ _ | const _ => true
  | _ => false

/-- The object as a function. -/
def asFunction (a : Obj) : Obj := if a.isFunction then a else const a

end Obj

variable (P : Lib)

/-- `util.If`. -/
def If (cond : Term .bool) (a b : Obj) : Except Exc Obj :=
  match a, b with
  | .expr a, .expr b => do return .expr (← ifValue P cond a b)
  | a, b =>
    let cond := P.simplify cond
    if (P.simplify cond).isLit true then .ok a
    else if (P.simplify cond).isLit false then .ok b
    else do
      if ← definitelyEqual P a b then pure a
      else
        match a with
        | .ptr p => return .ptr (← p.iteObj P b cond)
        | a =>
          if a.isFunction ∨ b.isFunction then pure (.lam cond a.asFunction b.asFunction)
          else
            match a with
            | .expr _ => throw .z3
            | _ => throw .value

/-! ## Contexts -/

/-- A Python dictionary. -/
abbrev Dict (κ α : Type) := AList fun _ : κ => α

/-- What a snapshot of the context is used for. -/
structure Scope where
  globals : Dict String Obj
  locals : List (Dict String Obj)
  references : Dict String (Dict (List Nat) Obj)
  accessed : List String

/-- `Context`, with the solver, the path condition, the snapshots and the counters of `fresh_name`,
which all contexts share. The first scope of the solver is the innermost one. -/
structure Ctx extends Scope where
  solver : List (List (Term .bool))
  pathCondition : List (Term .bool)
  snapshots : List Scope
  depth : Nat
  freshIdx : Dict String Nat

/-- The context before anything is evaluated. -/
def Ctx.new : Ctx := ⟨⟨∅, [], ∅, []⟩, [], [], [], 0, ∅⟩

/-- An evaluation: it keeps the changes of the context when it raises an exception. -/
abbrev Py := EStateM Exc Ctx

/-- The result of a computation without a context. -/
def ofExcept {α : Type} : Except Exc α → Py α
  | .ok a => pure a
  | .error e => throw e

namespace Ctx

/-- The assertions of the solver. -/
def assertions (c : Ctx) : List (Term .bool) := c.solver.flatten

/-- `solver.add`. -/
def solverAdd (c : Ctx) (t : Term .bool) : Ctx :=
  match c.solver with
  | [] => { c with solver := [[t]] }
  | scope :: rest => { c with solver := (t :: scope) :: rest }

/-- `snapshot`. -/
def snapshot (c : Ctx) : Scope := c.toScope

/-- `restore`. -/
def restore (c : Ctx) (sc : Scope) : Ctx := { c with toScope := sc }

/-- `add_assumption`. -/
def addAssumption (c : Ctx) (t : Term .bool) : Ctx :=
  { c.solverAdd t with pathCondition := c.pathCondition ++ [t] }

/-- `push`. -/
def push (c : Ctx) (t : Term .bool) : Ctx :=
  let d := { c with snapshots := c.snapshot :: c.snapshots, solver := [] :: c.solver }.solverAdd t
  { d with pathCondition := c.pathCondition ++ [t], depth := c.depth + 1 }

/-- `pop`: the context as it was before the matching `push`, and a snapshot of what it was. -/
def pop (c : Ctx) : Scope × Ctx :=
  let d :=
    { c with
      depth := c.depth - 1, pathCondition := c.pathCondition.dropLast, solver := c.solver.tail }
  match c.snapshots with
  | [] => (d.snapshot, d)
  | sc :: rest => (d.snapshot, { d with snapshots := rest }.restore sc)

end Ctx

/-- `fresh_name`. -/
def freshName (name : String) : Py String := do
  let n := ((← get).freshIdx.lookup name).getD 0
  modify fun c => { c with freshIdx := c.freshIdx.insert name (n + 1) }
  pure (name ++ "." ++ toString n)

/-- `path_condition_implies`. -/
def pathConditionImplies (t : Term .bool) : Py Bool := do
  return P.implies (← get).assertions t

/-! ## Merging -/

section Merge

variable {κ α : Type} [DecidableEq κ]

/-- `util.merge` of two dictionaries, their values merged by `m`: a value that only one of them has
is taken over. -/
def mergeDict (m : α → α → Except Exc α) (d e : Dict κ α) : Except Exc (Dict κ α) :=
  (d.keys ++ e.keys).foldlM (fun out k =>
    match d.lookup k, e.lookup k with
    | some a, some b => do return out.insert k (← m a b)
    | some a, none => pure (out.insert k a)
    | none, some b => pure (out.insert k b)
    | none, none => pure out) ∅

/-- `util.merge` of two lists. -/
def mergeList (m : α → α → Except Exc α) (as bs : List α) : Except Exc (List α) :=
  if as.length = bs.length then (as.zip bs).mapM fun p => m p.1 p.2 else .error .assertion

end Merge

/-- `merge`. -/
def mergeCtx (cond : Term .bool) (c d : Scope) : Py Unit := do
  let globals ← ofExcept (mergeDict (If P cond) c.globals d.globals)
  modify fun e => { e with globals }
  let locals ← ofExcept (mergeList (mergeDict (If P cond)) c.locals d.locals)
  modify fun e => { e with locals }
  let references ← ofExcept (mergeDict (mergeDict (If P cond)) c.references d.references)
  modify fun e => { e with references, accessed := c.accessed.union d.accessed }

end L4Thread.Irpy
