import L4Thread.Irpy.Context
import L4Thread.Lib.PyStr

/-!
# Types by name

`parse_type` of `src/libirpy/itypes.py`, which makes a type of the evaluator from what LLVM prints
for a type (`nameType` of `src/compiler/PyLLVMEmitter.cc`). A struct that is looked up is its name,
by which `==` compares it; one that comes with its definition has the fields too. A string is a list
of characters.
-/

namespace L4Thread.Irpy

open PyStr

/-! ## Parsing -/

/-- The classes of `itypes.py`. -/
inductive IType
  | void
  | varArg
  | int (bitwidth : Int)
  | struct (name : List Char)
  | definition (name : List Char) (fields : List IType)
  | array (size : Int) (type : IType)
  | pointer (deref : IType)
  | function (returnType : IType) (arguments : List IType)

/-- The tables of types: `ctx['types']` has the struct types by their names behind a percent sign,
`int_struct_name` the key of a struct for some integer types. -/
structure TypeTables where
  declared : List (List Char)
  intStructName : List Char → Option (List Char)

/-- `ctx['types'][key]`. -/
def TypeTables.lookup (ctx : TypeTables) : List Char → Except Exc IType
  | '%' :: name => if name ∈ ctx.declared then .ok (.struct name) else .error .key
  | _ => .error .key

/-- The type of an integer. -/
def parseInt (digits : List Char) : Except Exc Int :=
  match toInt digits with
  | some n => .ok n
  | none => .error .value

/-- What is between the first and the last character. -/
def inner (s : List Char) : List Char := s.tail.dropLast

section

variable (ctx : TypeTables) (parse : List Char → Except Exc IType)

/-! The branches of `parse_type`, which calls itself as `parse`. -/

/-- The arguments of a function type. -/
def parseArgs (args : List Char) : Except Exc (List IType) :=
  if strip args = [] then .ok [] else (splitPair ',' ' ' args).mapM parse

/-- A function type. -/
def parseFunction (typ : List Char) : Except Exc IType :=
  match splitOnce [' ', '('] typ with
  | none => .error .value
  | some (ret, args) =>
    if args.getLast? = some ')' then do
      let args ← parseArgs parse args.dropLast
      return .function (← parse ret) args
    else .error .assertion

/-- An array type. -/
def parseArray (typ : List Char) : Except Exc IType :=
  if typ.getLast? = some ']' then
    match splitOnce [' ', 'x', ' '] (inner typ) with
    | none => .error .value
    | some (size, subtyp) => do
      let size ← parseInt size
      return .array size (← parse subtyp)
  else .error .assertion

/-- A struct of one integer: the last one that was declared with it. -/
def parseIntStruct (typ : List Char) : Except Exc IType :=
  if typ.getLast? = some '}' then
    let typ := strip (inner typ)
    if typ.head? = some 'i' then
      match ctx.intStructName typ with
      | none => .error .key
      | some key => if key = [] then .error .assertion else ctx.lookup key
    else .error .assertion
  else .error .assertion

/-- A named struct, possibly with its definition. -/
def parseNamed (typ : List Char) : Except Exc IType :=
  if contains [' ', '=', ' ', 't', 'y', 'p', 'e', ' '] typ then
    match splitOnce [' ', '=', ' '] typ with
    | none => .error .value
    | some (name, fields) =>
      if ['t', 'y', 'p', 'e', ' ', '{'].isPrefixOf fields ∧ fields.getLast? = some '}' then do
        let fields ← (splitPair ',' ' ' (strip ((fields.drop 7).dropLast))).mapM parse
        return .definition name.tail fields
      else .error .assertion
  else ctx.lookup typ

/-- The body of `parse_type`. -/
def parseTypeBody (typ : List Char) : Except Exc IType :=
  if typ = [] then .error .assertion
  else if typ.getLast? = some '*' then do return .pointer (← parse typ.dropLast)
  else if typ = ['v', 'o', 'i', 'd'] then .ok .void
  else if typ = ['.', '.', '.'] then .ok .varArg
  else if ' ' ∈ typ ∧ '(' ∈ typ ∧ ')' ∈ typ then parseFunction parse typ
  else if typ.head? = some '[' then parseArray parse typ
  else if typ.head? = some 'i' then do
    return .int (← parseInt (typ.dropWhile (· = 'i')))
  else if typ.head? = some '{' then parseIntStruct ctx typ
  else if typ.head? = some '%' then parseNamed ctx parse typ
  else .error .value

end

/-- `parse_type` with a bound on the depth of its calls. -/
def parseTypeUpTo (ctx : TypeTables) : Nat → List Char → Except Exc IType
  | 0, _ => .error .runtime
  | fuel + 1, typ => parseTypeBody ctx (parseTypeUpTo ctx fuel) typ

/-- `parse_type`. It calls itself with shorter strings. -/
def parseType (ctx : TypeTables) (typ : List Char) : Except Exc IType :=
  parseTypeUpTo ctx (typ.length + 1) typ

/-! ## Printing -/

/-- The types of LLVM that are printed. -/
inductive LlvmType
  | void
  | int (width : Nat)
  | struct (name : List Char)
  | array (size : Nat) (type : LlvmType)
  | pointer (target : LlvmType)
  | function (ret : LlvmType) (params : List LlvmType) (isVarArg : Bool)

namespace LlvmType

/-- A name is printed in quotes if it begins with a digit or has other characters than letters,
digits, minus signs, dots and underscores. -/
def needsQuotes (name : List Char) : Bool :=
  name.head?.any Char.isDigit || !name.all fun c => c.isAlphanum || c = '-' || c = '.' || c = '_'

def hexDigit (n : Nat) : Char := Char.ofNat (if n < 10 then 48 + n else 55 + n)

/-- A character in quotes. -/
def escape (c : Char) : List Char :=
  if 32 ≤ c.toNat ∧ c.toNat < 127 ∧ c ≠ '\\' ∧ c ≠ '"' then [c]
  else ['\\', hexDigit (c.toNat / 16), hexDigit (c.toNat % 16)]

def printName (name : List Char) : List Char :=
  if needsQuotes name then '"' :: name.flatMap escape ++ ['"'] else name

mutual

/-- `print`. -/
def print : LlvmType → List Char
  | void => ['v', 'o', 'i', 'd']
  | int width => 'i' :: Nat.toDigits 10 width
  | struct name => '%' :: printName name
  | array size type => '[' :: Nat.toDigits 10 size ++ [' ', 'x', ' '] ++ print type ++ [']']
  | pointer target => print target ++ ['*']
  | function ret params isVarArg =>
    print ret ++ [' ', '('] ++
      join [',', ' '] (printAll params ++ if isVarArg then [['.', '.', '.']] else []) ++ [')']

def printAll : List LlvmType → List (List Char)
  | [] => []
  | t :: ts => print t :: printAll ts

end

mutual

/-- The type that is meant. -/
def toIType : LlvmType → IType
  | void => .void
  | int width => .int width
  | struct name => .struct name
  | array size type => .array size (toIType type)
  | pointer target => .pointer (toIType target)
  | function ret params isVarArg =>
    .function (toIType ret) (toITypes params ++ if isVarArg then [.varArg] else [])

def toITypes : List LlvmType → List IType
  | [] => []
  | t :: ts => toIType t :: toITypes ts

end

/-- The definition of a struct: without fields if it is only declared. -/
structure Definition where
  fields : Option (List LlvmType)
  isPacked : Bool

/-- `printStructBody`. -/
def Definition.print (body : Definition) : List Char :=
  match body.fields with
  | none => ['o', 'p', 'a', 'q', 'u', 'e']
  | some fields =>
    let braces :=
      if fields.isEmpty then ['{', '}']
      else ['{', ' '] ++ join [',', ' '] (printAll fields) ++ [' ', '}']
    if body.isPacked then '<' :: braces ++ ['>'] else braces

/-- `nameType`: the type of a value is printed with the definition if it is a struct. -/
def nameType (definitions : List Char → Definition) : LlvmType → List Char
  | struct name =>
    print (struct name) ++ [' ', '=', ' ', 't', 'y', 'p', 'e', ' '] ++ (definitions name).print
  | t => t.print

/-- The type that is meant by `nameType`. -/
def valueType (definitions : List Char → Definition) : LlvmType → IType
  | struct name => .definition name (toITypes ((definitions name).fields.getD []))
  | t => t.toIType

end LlvmType

end L4Thread.Irpy
