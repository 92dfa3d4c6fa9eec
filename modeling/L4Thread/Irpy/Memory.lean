import L4Thread.Irpy.Context

/-!
# Memory of the symbolic evaluator

References, pointers and the memory instructions (`datatypes.py`, `z3eval.py`). The memory of a
reference is a function of the indices for every tuple of field numbers; a write replaces the
function.
-/

namespace L4Thread.Irpy

open Smt

variable (P : Lib)

/-! ## Functions -/

/-- The arguments of a function symbol. -/
def argTerms : List Value → Except Exc (Term .args)
  | [] => .ok .nil
  | ⟨.bv 64, t⟩ :: vs => do return .cons t (← argTerms vs)
  | _ => .error .z3

/-- `z3.And` of the equations of two lists of indices. -/
def indicesEq : List Value → List Value → Except Exc (Term .bool)
  | a :: as, b :: bs =>
    if h : b.sort = a.sort then do return .and (.eq a.term (h ▸ b.term)) (← indicesEq as bs)
    else .error .z3
  | _, _ => .ok (.lit true)

/-- The call of a function. -/
def Obj.apply : Obj → List Value → Except Exc Obj
  | decl f arity s, args => do
    if args.length = arity then return .expr ⟨s, .app f (← argTerms args) s⟩ else throw .z3
  | update old margs value, args => do
    let cond ← indicesEq margs args
    If P cond value (← old.apply args)
  | lam cond a b, args => do
    let a ← a.apply args
    let b ← b.apply args
    If P cond a b
  | const v, _ => .ok v
  | _, _ => .error .typeError

/-! ## References -/

/-- The number that a term is simplified to. -/
def numeral (v : Value) : Option Nat :=
  match v.sort, P.simplify v.term with
  | .bv _, .lit n => some (BitVec.toNat n)
  | _, _ => none

/-- `z3.ULT (index, length)`. -/
def indexBelow (v : Value) (n : Nat) : Except Exc (Term .bool) :=
  match v with
  | ⟨.bv w, t⟩ => .ok (.cmp .ult t (.lit (BitVec.ofNat w n)))
  | _ => .error .z3

/-- `index == 0`. -/
def indexZero (v : Value) : Except Exc (Term .bool) :=
  match v with
  | ⟨.bv w, t⟩ => .ok (.eq t (.lit (0 : BitVec w)))
  | _ => .error .z3

/-- `build_field_tuple_and_path`. -/
def buildFieldTupleAndPath (typ : Ty) : List Value → Py (List Nat × List Value)
  | [] => pure ([], [])
  | i :: path =>
    match typ with
    | .array n t => do
      if ← pathConditionImplies P (← ofExcept (indexBelow i n)) then
        let (fields, newpath) ← buildFieldTupleAndPath t path
        pure (fields, i :: newpath)
      else throw .index
    | .pointer t => do
      if ← pathConditionImplies P (← ofExcept (indexZero i)) then
        let (fields, newpath) ← buildFieldTupleAndPath t path
        pure (fields, i :: newpath)
      else throw .runtime
    | .struct _ ts _ => do
      match numeral P i with
      | none => throw .attribute
      | some field =>
        match ts[field]? with
        | none => throw .index
        | some t =>
          let (fields, newpath) ← buildFieldTupleAndPath t path
          pure (field :: fields, newpath)
    | _ => throw .assertion

/-- The function of a field tuple. -/
def fieldFunction (ref : Reference) (fields : List Nat) : Py Obj := do
  match (← get).references.lookup ref.name with
  | none => throw .key
  | some d =>
    match d.lookup fields with
    | none => throw .key
    | some f => pure f

def access (ref : Reference) : Py Unit :=
  modify fun c => { c with accessed := c.accessed.insert ref.name }

/-- `Reference.read`. -/
def Reference.read (ref : Reference) (path : List Value) : Py Obj := do
  let (fields, path) ← buildFieldTupleAndPath P ref.type path
  access ref
  ofExcept ((← fieldFunction ref fields).apply P path)

/-- `Reference.write`. -/
def Reference.write (ref : Reference) (path : List Value) (value : Obj) : Py Unit := do
  let (fields, path) ← buildFieldTupleAndPath P ref.type path
  let oldf ← fieldFunction ref fields
  access ref
  modify fun c =>
    { c with
      references :=
        c.references.insert ref.name
          (((c.references.lookup ref.name).getD ∅).insert fields (.update oldf path value)) }

/-! ## Pointers -/

/-- An index as a 64-bit term: one of another width has to be a number. -/
def widen (v : Value) : Except Exc (Term (.bv 64)) :=
  match v with
  | ⟨.bv 64, t⟩ => .ok t
  | v =>
    match numeral P v with
    | some n => .ok (.lit (BitVec.ofNat 64 n))
    | none => .error .assertion

/-- The loop of `canonical_path`, from the last index of the path so far on. -/
def canonicalFrom (last : Value) : Geps → Except Exc (List Value)
  | [] => .ok [last]
  | [] :: _ => .error .assertion
  | (i :: idxs) :: geps => do
    let sum : Value := ⟨_, .bin .add (← widen P last) (← widen P i)⟩
    match idxs.getLast? with
    | none => canonicalFrom sum geps
    | some last => return sum :: idxs.dropLast ++ (← canonicalFrom last geps)

/-- `canonical_path`. -/
def canonicalPath (geps : Geps) : Except Exc (List Value) := do
  let path ← canonicalFrom P (.bvVal 64 0) geps
  return path.map fun v => ⟨v.sort, P.simplify v.term⟩

namespace Pointer

/-- `Pointer.__init__` of an initialised pointer. -/
def make (ref : Reference) (geps : Geps) (type : Ty) : Py Pointer := do
  let p := base ref geps type
  modify fun c => c.addAssumption (.not (.eq (p.name P) null))
  pure p

/-- `bitvec_read`. -/
def bitvecRead (name : Term (.bv 64)) (type : Ty) : Py Obj := do
  let n ← freshName (P.strTerm name ++ ".read")
  pure (.expr ⟨_, .var (n ++ "()") (.bv type.deref.size)⟩)

/-- `read`. -/
def read : Pointer → Py Obj
  | base ref geps _ => do ref.read P (← ofExcept (canonicalPath P geps))
  | raw name type => bitvecRead P name type
  | ite cond p1 p2 _ _ => do
    let a ← p1.read
    let b ← p2.read
    ofExcept (If P cond a b)

/-- `write`. -/
def write : Pointer → Obj → Py Unit
  | base ref geps _, value => do ref.write P (← ofExcept (canonicalPath P geps)) value
  | raw _ _, _ => pure ()
  | ite cond p1 p2 _ _, value => do
    p1.write (← ofExcept (If P cond value (← p1.read P)))
    p2.write (← ofExcept (If P (.not cond) value (← p2.read P)))

/-- `getelementptr`: an arm of a conditional pointer that is pushed last is visited first. -/
def getelementptr (idxs : List Value) (type : Ty) : Pointer → Py Pointer
  | base ref geps _ =>
    if idxs = [] then throw .assertion else make P ref (geps ++ [idxs]) type
  | raw name _ => do
    let n ← freshName (P.strTerm name ++ ".get")
    pure (raw (.var (n ++ "()") (.bv 64)) type)
  | ite cond p1 p2 _ _ => do
    let q2 ← getelementptr idxs type p2
    let q1 ← getelementptr idxs type p1
    ofExcept (q1.iteObj P (.ptr q2) cond)

/-- An entry of `ite_stack`: a pointer to visit, or the condition of two results. -/
inductive IteEntry
  | visit (p : Pointer)
  | join (cond : Term .bool)

/-- The number of entries that a pointer puts on the stack. -/
def entries : Pointer → Nat
  | ite _ p1 p2 _ _ => p1.entries + p2.entries + 2
  | _ => 1

def IteEntry.entries : IteEntry → Nat
  | visit p => p.entries
  | join _ => 1

/-- The loop of `getelementptr` over `ite_stack`, with `result`. -/
def getelementptrLoop (idxs : List Value) (type : Ty) :
    List IteEntry → List Pointer → Py (List Pointer)
  | [], result => pure result
  | .visit (ite cond p1 p2 _ _) :: stack, result =>
    getelementptrLoop idxs type (.visit p2 :: .visit p1 :: .join cond :: stack) result
  | .visit (base ref geps _) :: stack, result => do
    let p ← if idxs = [] then throw .assertion else make P ref (geps ++ [idxs]) type
    getelementptrLoop idxs type stack (p :: result)
  | .visit (raw name _) :: stack, result => do
    let n ← freshName (P.strTerm name ++ ".get")
    getelementptrLoop idxs type stack (raw (.var (n ++ "()") (.bv 64)) type :: result)
  | .join cond :: stack, p1 :: p2 :: result => do
    let p ← ofExcept (p1.iteObj P (.ptr p2) cond)
    getelementptrLoop idxs type stack (p :: result)
  | .join _ :: _, _ => throw .index
termination_by stack => (stack.map IteEntry.entries).sum
decreasing_by
  all_goals
    simp only [List.map_cons, List.sum_cons, IteEntry.entries, entries]
    omega

/-- `getelementptr` as the source has it. -/
def getelementptrStack (idxs : List Value) (type : Ty) (p : Pointer) : Py Pointer := do
  match ← getelementptrLoop P idxs type [.visit p] [] with
  | q :: _ => pure q
  | [] => throw .index

end Pointer

/-- The loop of `init_ref` over the parts of a type: a function symbol for every field tuple. The
names that the debug information has for fields are left out. -/
def freshRef (name : String) : Ty → List Nat → Nat → Py (Dict (List Nat) Obj)
  | .struct _ ts _, tup, depth => fields tup depth 0 ts
  | .int w, tup, depth => leaf w tup depth
  | .pointer t, tup, depth =>
    if depth ≠ 0 then leaf 64 tup depth else freshRef name t tup (depth + 1)
  | .array _ t, tup, depth => freshRef name t tup (depth + 1)
  | _, _, _ => throw .assertion
where
  /-- The symbol of a scalar part. -/
  leaf (w : Nat) (tup : List Nat) (depth : Nat) : Py (Dict (List Nat) Obj) := do
    let n ← freshName name
    pure ((∅ : Dict (List Nat) Obj).insert tup (.decl n depth (.bv w)))
  /-- The parts of a struct. -/
  fields (tup : List Nat) (depth i : Nat) : List Ty → Py (Dict (List Nat) Obj)
    | [] => pure ∅
    | t :: ts => do
      let d ← freshRef name t (tup ++ [i]) depth
      let e ← fields tup depth (i + 1) ts
      pure (d ∪ e)

/-- `init_ref`. -/
def initRef (ref : Reference) : Py Unit := do
  let d ← freshRef ref.name ref.type [] 0
  if ((← get).references.lookup ref.name).isSome then throw .assertion
  else modify fun c => { c with references := c.references.insert ref.name d }

/-- `fresh_ptr`. -/
def freshPtr (name : String) (type : Ty) : Py Pointer := do
  let ref : Reference := ⟨name, type⟩
  initRef ref
  Pointer.make P ref [] type

/-! ## Instructions -/

/-- `alloca`. -/
def alloca (type : Ty) : Py Pointer :=
  match type with
  | .pointer _ => do freshPtr P (← freshName "alloca") type
  | _ => throw .assertion

/-- `load`. -/
def load (returnType : Ty) (target : Obj) (targetType : Ty) : Py Obj :=
  if returnType.eq targetType.deref then
    match target with
    | .ptr p => p.read P
    | _ => throw .attribute
  else throw .assertion

/-- `store`. -/
def store (returnType : Ty) (target : Obj) (targetType : Ty) (dest : Obj) (destType : Ty) :
    Py Unit :=
  if destType.deref.eq targetType then
    match dest with
    | .ptr p => do
      p.write P target
      if returnType.eq .void then pure () else throw .assertion
    | _ => throw .attribute
  else throw .assertion

/-- `get_element_ptr`. -/
def getElementPtr (returnType : Ty) (target : Obj) (idxs : List Value) : Py Obj :=
  match target with
  | .ptr p => do return .ptr (← p.getelementptr P idxs returnType)
  | .bitcast p type geps =>
    if returnType.eq type ∧ idxs ≠ [] then pure (.bitcast p type (geps ++ [(idxs, type)]))
    else throw .assertion
  | _ => throw .attribute

/-- `bitcast`. -/
def bitcast (returnType : Ty) (value : Obj) : Py Obj :=
  match value with
  | .ptr p => pure (.bitcast p returnType [])
  | _ => throw .assertion

/-- `constant_pointer_null`. -/
def constantPointerNull (type : Ty) : Pointer := .raw null type

end L4Thread.Irpy
