import L4Thread.Irpy.Memory

/-!
# Instructions of the symbolic evaluator

Arithmetic, logic, casts, predicates, `select`, `branch` and `switch` of `z3eval.py`. The operators
of the solver's interface are defined on bit-vectors of the same width; on anything else they raise
an exception, or, for the signed comparisons of two Booleans, give a Python boolean that is no term.
-/

namespace L4Thread.Irpy

open Smt

/-- `_is_poison`: the name of a symbol in the term says so. -/
def isPoison : {s : Srt} → Term s → Bool
  | _, .lit _ | _, .nil => false
  | _, .var name _ => "poison.".toList.isPrefixOf name.toList
  | _, .app _ xs _ => isPoison xs
  | _, .cons a xs => isPoison a || isPoison xs
  | _, .not a | _, .extract _ _ a | _, .zeroExt _ a | _, .signExt _ a => isPoison a
  | _, .and a b | _, .or a b | _, .xor a b | _, .eq a b | _, .bin _ a b | _, .cmp _ a b
  | _, .addFits _ a b => isPoison a || isPoison b
  | _, .ite c a b => isPoison c || isPoison a || isPoison b

/-- The flags of an instruction. -/
structure Flags where
  nuw : Bool
  nsw : Bool
  exact : Bool
  deriving DecidableEq

def Flags.none : Flags := ⟨false, false, false⟩

/-- An assertion of the evaluator. -/
def check (b : Bool) : Py Unit := if b then pure () else throw .assertion

/-! ## Operators of the solver's interface -/

/-- Two bit-vectors of the same width. -/
def sameWidth {α : Type} (a b : Value)
    (f : {w : Nat} → Term (.bv w) → Term (.bv w) → α) : Except Exc α :=
  match a, b with
  | ⟨.bv v, x⟩, ⟨.bv w, y⟩ => if h : v = w then .ok (f (h ▸ x) y) else .error .z3
  | _, _ => .error .z3

def bvBin (op : BvOp) (a b : Value) : Except Exc Value :=
  sameWidth a b fun x y => ⟨_, .bin op x y⟩

def bvCmp (op : BvCmp) (a b : Value) : Except Exc Value :=
  sameWidth a b fun x y => ⟨_, .cmp op x y⟩

/-- `a == b` as a term. -/
def eqTerm (a b : Value) : Except Exc (Term .bool) :=
  if h : b.sort = a.sort then .ok (.eq a.term (h ▸ b.term)) else .error .z3

/-- `bvadd_no_overflow`. -/
def bvaddNoOverflow (a b : Value) (signed : Bool) : Except Exc (Term .bool) :=
  sameWidth a b fun x y => .addFits signed x y

/-- A term that has to be Boolean. -/
def boolTerm (v : Value) : Except Exc (Term .bool) :=
  match v with
  | ⟨.bool, t⟩ => .ok t
  | _ => .error .z3

section

variable (P : Lib)

/-- `util.If` of two terms of one sort. -/
def ifTerm {s : Srt} (cond : Term .bool) (a b : Term s) : Term s :=
  let cond := P.simplify cond
  if (P.simplify cond).isLit true then a
  else if (P.simplify cond).isLit false then b
  else if Value.sameClass ⟨s, a⟩ ⟨s, b⟩ && (P.simplify (.eq a b)).isLit true then a
  else .ite cond a b

/-- `partial_eval`, with the assertions of the solver. -/
def partialEval (Γ : List (Term .bool)) : {s : Srt} → Term s → Term s
  | _, .ite c a b =>
    if P.implies Γ c then partialEval Γ a
    else if P.implies Γ (.not c) then partialEval Γ b
    else ifTerm P c (partialEval Γ a) (partialEval Γ b)
  | _, .app f xs s => .app f (partialEval Γ xs) s
  | _, .cons a xs => .cons (partialEval Γ a) (partialEval Γ xs)
  | _, .not a => .not (partialEval Γ a)
  | _, .and a b => .and (partialEval Γ a) (partialEval Γ b)
  | _, .or a b => .or (partialEval Γ a) (partialEval Γ b)
  | _, .xor a b => .xor (partialEval Γ a) (partialEval Γ b)
  | _, .eq a b => .eq (partialEval Γ a) (partialEval Γ b)
  | _, .bin op a b => .bin op (partialEval Γ a) (partialEval Γ b)
  | _, .cmp op a b => .cmp op (partialEval Γ a) (partialEval Γ b)
  | _, .addFits signed a b => .addFits signed (partialEval Γ a) (partialEval Γ b)
  | _, .extract low len a => .extract low len (partialEval Γ a)
  | _, .zeroExt len a => .zeroExt len (partialEval Γ a)
  | _, .signExt len a => .signExt len (partialEval Γ a)
  | _, t => t

/-- `as_bool`. -/
def asBool (v : Value) : Except Exc (Term .bool) :=
  match v with
  | ⟨.bool, t⟩ => .ok t
  | ⟨.bv 1, t⟩ => .ok (ifTerm P (.eq t (.lit (1 : BitVec 1))) (.lit true) (.lit false))
  | _ => .error .assertion

/-- `get_poison` of an integer type. -/
def getPoison (size : Nat) : Py Value := do
  let n ← freshName "poison"
  if size = 1 then pure ⟨_, .var n .bool⟩ else pure ⟨_, .var n (.bv size)⟩

/-! ## Arithmetic -/

/-- The check of the operand types. -/
def checkTypes (returnType atype btype : Ty) : Py Unit := do
  check (atype.eq returnType)
  check (atype.eq btype)

def add (returnType : Ty) (a : Value) (atype : Ty) (b : Value) (btype : Ty) (f : Flags) :
    Py Value := do
  checkTypes returnType atype btype
  if f.nuw then check (← pathConditionImplies P (← ofExcept (bvaddNoOverflow a b false)))
  if f.nsw then check (← pathConditionImplies P (← ofExcept (bvaddNoOverflow a b true)))
  ofExcept (bvBin .add a b)

/-- The operations that accept no flags. -/
def plain (op : BvOp) (returnType : Ty) (a : Value) (atype : Ty) (b : Value) (btype : Ty)
    (f : Flags) : Py Value := do
  checkTypes returnType atype btype
  check (!f.nuw && !f.nsw)
  ofExcept (bvBin op a b)

def sub := plain .sub

def mul := plain .mul

/-- The divisions: the divisor cannot be zero on the path. -/
def division (op : BvOp) (returnType : Ty) (a : Value) (atype : Ty) (b : Value) (btype : Ty)
    (f : Flags) : Py Value := do
  checkTypes returnType atype btype
  check (!f.nuw && !f.nsw && !f.exact)
  let zero ← ofExcept (eqTerm b (.bvVal btype.size 0))
  check (← pathConditionImplies P (.not zero))
  ofExcept (bvBin op a b)

def udiv := division P .udiv

def sdiv := division P .sdiv

def urem := division P .urem

def srem := division P .srem

/-- The shifts: poison if the shift is not less than the width. `lshr` and `ashr` have no parameter
`exact`, so that passing one is a type error. -/
def shift (op : BvOp) (returnType : Ty) (a : Value) (atype : Ty) (b : Value) (btype : Ty)
    (f : Flags) : Py Value := do
  if f.exact then throw .typeError
  checkTypes returnType atype btype
  check (!f.nuw && !f.nsw)
  let cond ← ofExcept (bvCmp .ult b (.bvVal btype.size btype.size))
  let cond ← ofExcept (boolTerm cond)
  let shifted ← ofExcept (bvBin op a b)
  let poison ← getPoison btype.size
  let v ← ofExcept (ifValue P cond shifted poison)
  pure ⟨v.sort, partialEval P (← get).assertions v.term⟩

def shl := shift P .shl

def lshr := shift P .lshr

def ashr := shift P .ashr

/-- The logical operations: Boolean if one of the operands is. -/
def logical (bop : Term .bool → Term .bool → Term .bool) (op : BvOp) (returnType : Ty) (a : Value)
    (atype : Ty) (b : Value) (btype : Ty) : Py Value := do
  checkTypes returnType atype btype
  if a.sort = .bool ∨ b.sort = .bool then
    let x ← ofExcept (asBool P a)
    let y ← ofExcept (asBool P b)
    check (returnType.size == 1)
    pure ⟨_, bop x y⟩
  else ofExcept (bvBin op a b)

def and_ := logical P .and .and

def or_ := logical P .or .or

def xor := logical P .xor .xor

/-! ## Casts -/

/-- `integer_size`. -/
def integerSize : Ty → Py Nat
  | .int w => pure w
  | _ => throw .assertion

def trunc (returnType : Ty) (a : Value) (atype : Ty) : Py Value := do
  let outsize ← integerSize returnType
  let insize ← integerSize atype
  check (outsize < insize)
  match a with
  | ⟨.bv w, t⟩ => if 0 < outsize ∧ outsize ≤ w then pure ⟨_, .extract 0 outsize t⟩ else throw .z3
  | _ => throw .z3

def zext (returnType : Ty) (a : Value) (atype : Ty) : Py Value := do
  let outsize ← integerSize returnType
  let insize ← integerSize atype
  check (insize < outsize)
  match a with
  | ⟨.bool, t⟩ => ofExcept (ifValue P t (.bvVal outsize 1) (.bvVal outsize 0))
  | ⟨.bv w, t⟩ => pure ⟨_, .zeroExt (w + (outsize - insize)) t⟩
  | _ => throw .z3

def sext (returnType : Ty) (a : Value) (atype : Ty) : Py Value := do
  let outsize ← integerSize returnType
  let insize ← integerSize atype
  check (insize < outsize)
  match a with
  | ⟨.bool, t⟩ => ofExcept (ifValue P t (.bvVal outsize 1) (.bvVal outsize 0))
  | ⟨.bv w, t⟩ => pure ⟨_, .signExt (w + (outsize - insize)) t⟩
  | _ => throw .z3

/-! ## Predicates -/

/-- `eq`. Two initialised pointers compare to a Python boolean, of which the solver's interface makes
a term. -/
def eq (a : Obj) (atype : Ty) (b : Obj) (btype : Ty) : Py Value :=
  match a, b with
  | .ptr p, .expr ⟨.bv w, t⟩ | .expr ⟨.bv w, t⟩, .ptr p => do
    return ⟨_, ← ofExcept (eqTerm ⟨_, p.name P⟩ ⟨.bv w, t⟩)⟩
  | .expr a, .expr b => do
    check (atype.eq btype)
    return ⟨_, ← ofExcept (eqTerm a b)⟩
  | .ptr (.base r gs s), .ptr (.base q hs t) => do
    check (atype.eq btype)
    let same ← ofExcept (Pointer.eq P (.base r gs s) (.base q hs t))
    return ⟨.bool, .lit same⟩
  | .ptr p, .ptr q => do
    check (atype.eq btype)
    return ⟨_, .eq (p.name P) (q.name P)⟩
  | _, _ => throw .value

def ne (a : Obj) (atype : Ty) (b : Obj) (btype : Ty) : Py Value := do
  let v ← eq P a atype b btype
  return ⟨_, .not (← ofExcept (boolTerm v))⟩

/-- The comparisons of integers. -/
def compare (op : BvCmp) (a : Value) (atype : Ty) (b : Value) (btype : Ty) : Py Value := do
  check (atype.eq btype)
  ofExcept (bvCmp op a b)

def ugt := compare .ugt

def uge := compare .uge

def ult := compare .ult

def ule := compare .ule

def sgt := compare .sgt

def sge := compare .sge

def slt := compare .slt

/-- The comparison of the source is `a < b`. -/
def sle := compare .slt

/-! ## Control -/

/-- `constant_int`. -/
def constantInt (value : Nat) (size : Nat) : Value :=
  if size = 1 then ⟨.bool, .lit (value == 1)⟩ else .bvVal size value

def select (returnType : Ty) (cond : Value) (condType : Ty) (trueval : Obj) (truevalType : Ty)
    (falseval : Obj) (falsevalType : Ty) : Py Obj := do
  check (!isPoison cond.term)
  check ((← integerSize condType) == 1)
  check (returnType.eq truevalType)
  check (truevalType.eq falsevalType)
  ofExcept (If P (← ofExcept (boolTerm cond)) trueval falseval)

/-- What the evaluation of a branch body led to. A body that panics has to be unreachable. -/
inductive Outcome
  | returned (v : Option Obj)
  | panic
  | failed
  | raised (e : Exc)

/-- The evaluation of a branch body, and a snapshot of the context behind it. -/
def runBody (cond : Term .bool) (body : Py (Option Obj)) : Py (Outcome × Scope) := do
  modify fun c => c.push cond
  let out ← try
      let v ← body
      pure (Outcome.returned v)
    catch e =>
      if e = .unreachable then
        if ← pathConditionImplies P (.lit false) then pure .panic else pure .failed
      else pure (.raised e)
  let c ← get
  set c.pop.2
  match out with
  | .failed => throw .assertion
  | out => pure (out, c.pop.1)

/-- The value of a branch only one of whose bodies counts. -/
def finishBranch (out : Outcome) (sc : Scope) : Py (Option Obj) := do
  modify fun c => c.restore sc
  match out with
  | .returned v => pure v
  | .raised e => throw e
  | _ => pure none

/-- The value of a branch both of whose bodies count. -/
def mergeBranch (cond scond : Term .bool) (t f : Outcome × Scope) : Py (Option Obj) := do
  mergeCtx P scond t.2 f.2
  match t.1, f.1 with
  | .raised e, _ | _, .raised e => throw e
  | .returned none, .returned none => pure none
  | .returned (some a), .returned (some b) => return some (← ofExcept (If P cond a b))
  | .returned (some _), _ => throw .z3
  | _, _ => throw .assertion

/-- `branch`. Beyond the pruning depth the source asks the solver the same questions again. -/
def branch (cond : Value) (condType : Ty) (iftrue iffalse : Py (Option Obj)) :
    Py (Option Obj) := do
  check (!isPoison cond.term)
  check ((← integerSize condType) == 1)
  let cond ← ofExcept (boolTerm cond)
  let scond := P.simplify cond
  let canBeTrue := !scond.isLit false && !(← pathConditionImplies P (.not scond))
  let canBeFalse := !canBeTrue || (!scond.isLit true && !(← pathConditionImplies P scond))
  let t ← if canBeTrue then some <$> runBody P scond iftrue else pure none
  let f ← if canBeFalse then some <$> runBody P (.not scond) iffalse else pure none
  let reached : Option (Outcome × Scope) → Option (Outcome × Scope) := fun
    | some (.panic, _) => none
    | r => r
  match reached t, reached f with
  | none, none => throw .unreachable
  | some t, none => finishBranch t.1 t.2
  | none, some f => finishBranch f.1 f.2
  | some t, some f => mergeBranch P cond scond t f

/-- `switch`. -/
def switch (value : Value) (valueType : Ty) (default : Py (Option Obj)) :
    List (Value × Ty × Py (Option Obj)) → Py (Option Obj)
  | [] => default
  | (v, t, body) :: cases => do
    check (valueType.eq t)
    let cond ← ofExcept (eqTerm value v)
    branch P ⟨_, cond⟩ (.int 1) body (switch value valueType default cases)

end

end L4Thread.Irpy
