import Mathlib.Algebra.Order.Ring.Nat
import Mathlib.Data.BitVec

/-!
# Terms of an SMT solver

Booleans and bit-vectors with uninterpreted constants and functions, sorted by construction; the
arguments of a function are a term of a sort of their own. A term has a value under an assignment to
the uninterpreted symbols. A `Solver` simplifies terms without changing their values, and decides
whether some assignment satisfies a list of assertions.
-/

namespace Smt

inductive Srt
  | bool
  | bv (w : Nat)
  | args
  deriving DecidableEq

abbrev Srt.Val : Srt → Type
  | .bool => Bool
  | .bv w => BitVec w
  | .args => List (BitVec 64)

instance (s : Srt) : Inhabited s.Val := by cases s <;> (unfold Srt.Val; infer_instance)

instance (s : Srt) : DecidableEq s.Val := by cases s <;> (unfold Srt.Val; infer_instance)

/-- The operations on bit-vectors of one width. -/
inductive BvOp
  | add | sub | mul | udiv | sdiv | urem | srem | shl | lshr | ashr | and | or | xor
  deriving DecidableEq

inductive BvCmp
  | ult | ule | ugt | uge | slt | sle | sgt | sge
  deriving DecidableEq

namespace BvOp

variable {w : Nat}

/-- Division by zero and shifts by the width or more have the values of SMT-LIB. -/
def apply : BvOp → BitVec w → BitVec w → BitVec w
  | add, x, y => x + y
  | sub, x, y => x - y
  | mul, x, y => x * y
  | udiv, x, y => x.smtUDiv y
  | sdiv, x, y => x.smtSDiv y
  | urem, x, y => x % y
  | srem, x, y => x.srem y
  | shl, x, y => x <<< y
  | lshr, x, y => x >>> y
  | ashr, x, y => x.sshiftRight' y
  | and, x, y => x &&& y
  | or, x, y => x ||| y
  | xor, x, y => x ^^^ y

end BvOp

def BvCmp.apply {w : Nat} : BvCmp → BitVec w → BitVec w → Bool
  | ult, x, y => x.ult y
  | ule, x, y => x.ule y
  | ugt, x, y => y.ult x
  | uge, x, y => y.ule x
  | slt, x, y => x.slt y
  | sle, x, y => x.sle y
  | sgt, x, y => y.slt x
  | sge, x, y => y.sle x

/-- The sum is not too large for the width. -/
def addFits {w : Nat} (signed : Bool) (x y : BitVec w) : Bool :=
  if signed then x.toInt + y.toInt < 2 ^ (w - 1) else x.toNat + y.toNat < 2 ^ w

inductive Term : Srt → Type
  | lit {s : Srt} (v : s.Val) : Term s
  | var (name : String) (s : Srt) : Term s
  | app (f : String) (xs : Term .args) (s : Srt) : Term s
  | nil : Term .args
  | cons (a : Term (.bv 64)) (xs : Term .args) : Term .args
  | not (a : Term .bool) : Term .bool
  | and (a b : Term .bool) : Term .bool
  | or (a b : Term .bool) : Term .bool
  | xor (a b : Term .bool) : Term .bool
  | eq {s : Srt} (a b : Term s) : Term .bool
  | ite {s : Srt} (c : Term .bool) (a b : Term s) : Term s
  | bin {w : Nat} (op : BvOp) (a b : Term (.bv w)) : Term (.bv w)
  | cmp {w : Nat} (op : BvCmp) (a b : Term (.bv w)) : Term .bool
  | addFits {w : Nat} (signed : Bool) (a b : Term (.bv w)) : Term .bool
  | extract {w : Nat} (low len : Nat) (a : Term (.bv w)) : Term (.bv len)
  | zeroExt {w : Nat} (len : Nat) (a : Term (.bv w)) : Term (.bv len)
  | signExt {w : Nat} (len : Nat) (a : Term (.bv w)) : Term (.bv len)
  deriving DecidableEq

/-- An assignment to the uninterpreted symbols. -/
structure Env where
  var : String → (s : Srt) → s.Val
  fn : String → List (BitVec 64) → (s : Srt) → s.Val

namespace Term

/-- The value of a term. -/
def eval (σ : Env) : {s : Srt} → Term s → s.Val
  | _, lit v => v
  | _, var name s => σ.var name s
  | _, app f xs s => σ.fn f (xs.eval σ) s
  | _, nil => []
  | _, cons a xs => a.eval σ :: xs.eval σ
  | _, not a => !(a.eval σ : Bool)
  | _, and a b => (a.eval σ : Bool) && (b.eval σ : Bool)
  | _, or a b => (a.eval σ : Bool) || (b.eval σ : Bool)
  | _, xor a b => Bool.xor (a.eval σ) (b.eval σ)
  | _, eq a b => decide (a.eval σ = b.eval σ)
  | _, ite c a b => if (c.eval σ : Bool) then a.eval σ else b.eval σ
  | _, bin op a b => op.apply (a.eval σ) (b.eval σ)
  | _, cmp op a b => op.apply (a.eval σ) (b.eval σ)
  | _, addFits signed a b => Smt.addFits signed (a.eval σ) (b.eval σ)
  | _, extract low len a => BitVec.extractLsb' low len (a.eval σ)
  | _, zeroExt len a => BitVec.setWidth len (a.eval σ)
  | _, signExt len a => BitVec.signExtend len (a.eval σ)

/-- No uninterpreted symbols. -/
def isGround : {s : Srt} → Term s → Bool
  | _, lit _ | _, nil => true
  | _, var .. | _, app .. => false
  | _, cons a xs => isGround a && isGround xs
  | _, not a | _, extract _ _ a | _, zeroExt _ a | _, signExt _ a => isGround a
  | _, and a b | _, or a b | _, xor a b | _, eq a b | _, bin _ a b | _, cmp _ a b
  | _, addFits _ a b => isGround a && isGround b
  | _, ite c a b => isGround c && isGround a && isGround b

/-- The term is this value. -/
def isLit : Term .bool → Bool → Bool
  | lit v, b => v == b
  | _, _ => false

theorem eq_lit_of_isLit {t : Term .bool} {b : Bool} (h : t.isLit b = true) : t = lit b := by
  cases t with
  | lit v => simpa [isLit] using h
  | _ => cases h

variable {σ : Env} {s : Srt}

@[simp] theorem eval_lit (v : s.Val) : (lit v : Term s).eval σ = v := by
  rw [eval]

@[simp] theorem eval_not (a : Term .bool) : (not a).eval σ = !(a.eval σ : Bool) := by
  rw [eval]

theorem eval_eq_iff (a b : Term s) : (eq a b).eval σ = true ↔ a.eval σ = b.eval σ := by
  rw [eval]
  exact decide_eq_true_iff

theorem eval_ite (c : Term .bool) (a b : Term s) :
    (ite c a b).eval σ = if (c.eval σ : Bool) then a.eval σ else b.eval σ := by
  rw [eval]

/-- The value of a term without symbols. -/
theorem eval_eq_of_isGround {t : Term s} (h : t.isGround = true) (σ τ : Env) :
    t.eval σ = t.eval τ := by
  induction t with
  | lit | nil => rfl
  | var | app => cases h
  | cons a b iha ihb | and a b iha ihb | or a b iha ihb | xor a b iha ihb | eq a b iha ihb
  | bin op a b iha ihb | cmp op a b iha ihb | addFits signed a b iha ihb =>
    rw [isGround, Bool.and_eq_true] at h
    rw [eval, eval, iha h.1, ihb h.2]
  | not a ih | extract low len a ih | zeroExt len a ih | signExt len a ih =>
    rw [eval, eval, ih h]
  | ite c a b ihc iha ihb =>
    rw [isGround, Bool.and_eq_true, Bool.and_eq_true] at h
    rw [eval, eval, ihc h.1.1, iha h.1.2, ihb h.2]

end Term

/-- An assignment for terms without symbols. -/
instance : Inhabited Env := ⟨⟨fun _ _ => default, fun _ _ _ => default⟩⟩

/-- All assertions hold under the assignment. -/
def Holds (σ : Env) (Γ : List (Term .bool)) : Prop := ∀ t ∈ Γ, t.eval σ = true

/-- A solver that answers correctly. -/
structure Solver where
  simplify {s : Srt} : Term s → Term s
  eval_simplify {s : Srt} (t : Term s) (σ : Env) : (simplify t).eval σ = t.eval σ
  unsat : List (Term .bool) → Bool
  unsat_iff (Γ : List (Term .bool)) : unsat Γ = true ↔ ∀ σ, ¬Holds σ Γ

namespace Solver

/-- The solver that decides by looking at all assignments. -/
noncomputable def ideal : Solver where
  simplify t := t
  eval_simplify _ _ := rfl
  unsat Γ := @decide (∀ σ, ¬Holds σ Γ) (Classical.dec _)
  unsat_iff _ := @decide_eq_true_iff _ (Classical.dec _)

variable (Z : Solver)

/-- Terms without symbols are simplified to their values. -/
def Folds : Prop := ∀ {s : Srt} {t : Term s}, t.isGround = true → ∃ v, Z.simplify t = .lit v

/-- The solver that evaluates what has no symbols, and looks at all assignments. -/
noncomputable def folding : Solver where
  simplify t := if t.isGround then .lit (t.eval default) else t
  eval_simplify t σ := by
    split
    · next h => rw [Term.eval_lit, Term.eval_eq_of_isGround h default σ]
    · rfl
  unsat := ideal.unsat
  unsat_iff := ideal.unsat_iff

theorem folding_folds : folding.Folds := fun h => ⟨_, if_pos h⟩

variable {Z}

theorem Folds.simplify_eq {s : Srt} {t : Term s} (h : Z.Folds) (ht : t.isGround = true) (σ : Env) :
    Z.simplify t = .lit (t.eval σ) := by
  obtain ⟨v, hv⟩ := h ht
  have heval := Z.eval_simplify t σ
  rw [hv, Term.eval_lit] at heval
  rw [hv, heval]

variable (Z)

/-- The assertions imply the term. -/
def implies (Γ : List (Term .bool)) (t : Term .bool) : Bool := Z.unsat (t.not :: Γ)

theorem implies_iff {Γ : List (Term .bool)} {t : Term .bool} :
    Z.implies Γ t = true ↔ ∀ σ, Holds σ Γ → t.eval σ = true := by
  rw [implies, Z.unsat_iff]
  refine forall_congr' fun σ => ?_
  simp only [Holds, List.forall_mem_cons, Term.eval_not, not_and]
  constructor
  · intro h hΓ
    cases ht : t.eval σ with
    | true => rfl
    | false => exact absurd hΓ (h (by rw [ht]; rfl))
  · intro h ht hΓ
    rw [h hΓ] at ht
    cases ht

end Solver

end Smt
