import L4Thread.Lib.Smt

/-!
# Integer instructions of LLVM

The instructions on integers of any width, over any kind `α` of operands, and the value that the
language reference defines for operands that are bit-vectors: none if the result is poison or the
behaviour is undefined.
-/

namespace Llvm

open Smt

/-- The binary operations with the flags that each of them can have. -/
inductive BinOp
  | add (nuw nsw : Bool)
  | sub (nuw nsw : Bool)
  | mul (nuw nsw : Bool)
  | udiv (exact : Bool)
  | sdiv (exact : Bool)
  | urem
  | srem
  | shl (nuw nsw : Bool)
  | lshr (exact : Bool)
  | ashr (exact : Bool)
  | and
  | or
  | xor
  deriving DecidableEq

inductive Pred
  | eq | ne | ugt | uge | ult | ule | sgt | sge | slt | sle
  deriving DecidableEq

variable {w : Nat}

/-- The bit-vector operation behind a binary operation. -/
def BinOp.op : BinOp → BvOp
  | add _ _ => .add
  | sub _ _ => .sub
  | mul _ _ => .mul
  | udiv _ => .udiv
  | sdiv _ => .sdiv
  | urem => .urem
  | srem => .srem
  | shl _ _ => .shl
  | lshr _ => .lshr
  | ashr _ => .ashr
  | and => .and
  | or => .or
  | xor => .xor

def BinOp.exec : BinOp → BitVec w → BitVec w → Option (BitVec w)
  | add nuw nsw, x, y =>
    if (nuw && x.uaddOverflow y) || (nsw && x.saddOverflow y) then none else some (x + y)
  | sub nuw nsw, x, y =>
    if (nuw && x.usubOverflow y) || (nsw && x.ssubOverflow y) then none else some (x - y)
  | mul nuw nsw, x, y =>
    if (nuw && x.umulOverflow y) || (nsw && x.smulOverflow y) then none else some (x * y)
  | udiv exact, x, y =>
    if y = 0 ∨ (exact ∧ x % y ≠ 0) then none else some (x / y)
  | sdiv exact, x, y =>
    if y = 0 ∨ x.sdivOverflow y ∨ (exact ∧ x.srem y ≠ 0) then none else some (x.sdiv y)
  | urem, x, y => if y = 0 then none else some (x % y)
  | srem, x, y => if y = 0 ∨ x.sdivOverflow y then none else some (x.srem y)
  | shl nuw nsw, x, y =>
    if w ≤ y.toNat ∨ (nuw ∧ (x <<< y) >>> y ≠ x) ∨ (nsw ∧ (x <<< y).sshiftRight' y ≠ x) then none
    else some (x <<< y)
  | lshr exact, x, y =>
    if w ≤ y.toNat ∨ (exact ∧ (x >>> y) <<< y ≠ x) then none else some (x >>> y)
  | ashr exact, x, y =>
    if w ≤ y.toNat ∨ (exact ∧ (x.sshiftRight' y) <<< y ≠ x) then none
    else some (x.sshiftRight' y)
  | and, x, y => some (x &&& y)
  | or, x, y => some (x ||| y)
  | xor, x, y => some (x ^^^ y)

def Pred.holds : Pred → BitVec w → BitVec w → Bool
  | eq, x, y => x == y
  | ne, x, y => x != y
  | ugt, x, y => y.ult x
  | uge, x, y => y.ule x
  | ult, x, y => x.ult y
  | ule, x, y => x.ule y
  | sgt, x, y => y.slt x
  | sge, x, y => y.sle x
  | slt, x, y => x.slt y
  | sle, x, y => x.sle y

/-- An instruction with its operands and the width of its result. -/
inductive Instr (α : Nat → Type) : Nat → Type
  | bin {w : Nat} (op : BinOp) (a b : α w) : Instr α w
  | icmp {w : Nat} (p : Pred) (a b : α w) : Instr α 1
  | trunc {v w : Nat} (pos : 0 < w) (lt : w < v) (a : α v) : Instr α w
  | zext {v w : Nat} (pos : 0 < v) (lt : v < w) (a : α v) : Instr α w
  | sext {v w : Nat} (pos : 0 < v) (lt : v < w) (a : α v) : Instr α w
  | select {w : Nat} (c : α 1) (a b : α w) : Instr α w

namespace Instr

/-- The instruction on operands of another kind. -/
def map {α β : Nat → Type} (f : {w : Nat} → α w → β w) : {w : Nat} → Instr α w → Instr β w
  | _, bin op a b => bin op (f a) (f b)
  | _, icmp p a b => icmp p (f a) (f b)
  | _, trunc pos lt a => trunc pos lt (f a)
  | _, zext pos lt a => zext pos lt (f a)
  | _, sext pos lt a => sext pos lt (f a)
  | _, select c a b => select (f c) (f a) (f b)

/-- The instruction with its operands computed, from the first to the last. -/
def mapM {m : Type → Type} [Monad m] {α β : Nat → Type} (f : {w : Nat} → α w → m (β w)) :
    {w : Nat} → Instr α w → m (Instr β w)
  | _, bin op a b => do return bin op (← f a) (← f b)
  | _, icmp p a b => do return icmp p (← f a) (← f b)
  | _, trunc pos lt a => do return trunc pos lt (← f a)
  | _, zext pos lt a => do return zext pos lt (← f a)
  | _, sext pos lt a => do return sext pos lt (← f a)
  | _, select c a b => do return select (← f c) (← f a) (← f b)

def exec : {w : Nat} → Instr BitVec w → Option (BitVec w)
  | _, bin op a b => op.exec a b
  | _, icmp p a b => some (BitVec.ofBool (p.holds a b))
  | w, trunc _ _ a => some (a.setWidth w)
  | w, zext _ _ a => some (a.setWidth w)
  | w, sext _ _ a => some (a.signExtend w)
  | _, select c a b => some (if c = 1 then a else b)

end Instr

/-! ## The operations of the solver -/

theorem smtUDiv_eq_div {x y : BitVec w} (hy : y ≠ 0) : x.smtUDiv y = x / y := by
  rw [BitVec.smtUDiv_eq]
  exact if_neg hy

/-- Apart from a zero divisor, the signed division of the solver is the one of the language. -/
theorem smtSDiv_eq_sdiv {x y : BitVec w} (hy : y ≠ 0) : x.smtSDiv y = x.sdiv y := by
  have hneg : y.neg ≠ 0 := fun h => hy (by simpa using h)
  unfold BitVec.smtSDiv BitVec.sdiv
  cases x.msb <;> cases y.msb <;> simp only [smtUDiv_eq_div hy, smtUDiv_eq_div hneg] <;> rfl

/-- Where the result is defined, it is that of the bit-vector operation. -/
theorem BinOp.apply_of_exec {op : BinOp} {x y r : BitVec w} (h : op.exec x y = some r) :
    op.op.apply x y = r := by
  cases op <;> simp only [exec, Option.ite_none_left_eq_some, Option.some.injEq] at h <;>
    simp only [BinOp.op, BvOp.apply]
  case udiv exact => rw [smtUDiv_eq_div fun hy => h.1 (.inl hy)]; exact h.2
  case sdiv exact => rw [smtSDiv_eq_sdiv fun hy => h.1 (.inl hy)]; exact h.2
  case and | or | xor => exact h
  all_goals exact h.2

/-- The operations that need a divisor other than zero, or a shift less than the width. -/
theorem BinOp.defined_of_exec {op : BinOp} {x y r : BitVec w} (h : op.exec x y = some r) :
    match op with
    | udiv _ | sdiv _ | urem | srem => y ≠ 0
    | shl _ _ | lshr _ | ashr _ => y.toNat < w
    | _ => True := by
  cases op <;> simp only [exec, Option.ite_none_left_eq_some] at h ⊢
  case udiv exact => exact fun hy => h.1 (.inl hy)
  case sdiv exact => exact fun hy => h.1 (.inl hy)
  case urem => exact h.1
  case srem => exact fun hy => h.1 (.inl hy)
  case shl nuw nsw => exact not_le.1 fun hy => h.1 (.inl hy)
  case lshr exact => exact not_le.1 fun hy => h.1 (.inl hy)
  case ashr exact => exact not_le.1 fun hy => h.1 (.inl hy)

end Llvm
