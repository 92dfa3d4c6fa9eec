import L4Thread.Irpy.Eval

/-!
# Runs of the evaluator and the values of its terms

What the primitives of an evaluation do to a context, and the values of the terms that `util.If` and
`partial_eval` build.
-/

namespace L4Thread.Irpy

open Smt

variable {P : Lib} {α β : Type}

/-! ## Runs -/

namespace Py

variable {c d : Ctx}

@[simp] theorem pure_apply (a : α) : (pure a : Py α) c = .ok a c := rfl

@[simp] theorem throw_apply (e : Exc) : (throw e : Py α) c = .error e c := rfl

theorem bind_apply (x : Py α) (f : α → Py β) :
    (x >>= f) c = match x c with | .ok a d => f a d | .error e d => .error e d := by
  show EStateM.bind x f c = _
  unfold EStateM.bind
  cases x c <;> rfl

/-- A sequence returns if both parts do. -/
theorem bind_eq_ok {x : Py α} {f : α → Py β} {b : β} :
    (x >>= f) c = .ok b d ↔ ∃ a e, x c = .ok a e ∧ f a e = .ok b d := by
  rw [bind_apply]
  cases x c with
  | ok a e => simp
  | error => simp

@[simp] theorem get_bind (f : Ctx → Py β) : (get >>= f) c = f c c := rfl

@[simp] theorem ofExcept_ok_bind (a : α) (f : α → Py β) : (ofExcept (.ok a) >>= f) = f a := rfl

@[simp] theorem ofExcept_error_bind (e : Exc) (f : α → Py β) :
    (ofExcept (.error e) >>= f) c = .error e c := rfl

@[simp] theorem check_bind (b : Bool) (f : Unit → Py β) :
    (check b >>= f) c = if b then f () c else .error .assertion c := by
  cases b <;> rfl

@[simp] theorem pathConditionImplies_bind (t : Term .bool) (f : Bool → Py β) :
    (pathConditionImplies P t >>= f) c = f (P.implies c.assertions t) c := rfl

end Py

/-- A sequence without a context returns if both parts do. -/
theorem bind_eq_ok_iff {α β : Type} {x : Except Exc α} {f : α → Except Exc β} {y : β} :
    (x >>= f) = .ok y ↔ ∃ a, x = .ok a ∧ f a = .ok y := by
  cases x with
  | error e =>
    refine ⟨nofun, ?_⟩
    rintro ⟨_, h, -⟩
    cases h
  | ok a =>
    refine ⟨fun h => ⟨a, rfl, h⟩, ?_⟩
    rintro ⟨_, h, hy⟩
    cases h
    exact hy

theorem freshName_apply (name : String) (c : Ctx) :
    freshName name c =
      .ok (name ++ "." ++ toString ((c.freshIdx.lookup name).getD 0))
        { c with freshIdx := c.freshIdx.insert name ((c.freshIdx.lookup name).getD 0 + 1) } :=
  rfl

/-! ## The values of terms -/

variable {s : Srt}

theorem eval_of_isLit {t : Term .bool} {b : Bool} (h : (P.simplify t).isLit b = true) (σ : Env) :
    t.eval σ = b := by
  rw [← P.eval_simplify t σ, Term.eq_lit_of_isLit h, Term.eval_lit]

theorem eval_of_simplify_isLit {t : Term .bool} {b : Bool}
    (h : (P.simplify (P.simplify t)).isLit b = true) (σ : Env) : t.eval σ = b := by
  rw [← P.eval_simplify t σ]
  exact eval_of_isLit h σ

theorem eval_eq_of_isLit {a b : Term s} (h : (P.simplify (.eq a b)).isLit true = true) (σ : Env) :
    a.eval σ = b.eval σ :=
  (Term.eval_eq_iff a b).1 (eval_of_isLit h σ)

theorem definitelyEqual_terms (a b : Term s) :
    definitelyEqual P (.expr ⟨s, a⟩) (.expr ⟨s, b⟩) =
      .ok (Value.sameClass ⟨s, a⟩ ⟨s, b⟩ && (P.simplify (.eq a b)).isLit true) := by
  cases h : Value.sameClass ⟨s, a⟩ ⟨s, b⟩ <;> simp [definitelyEqual, h]

/-- `util.If` of two terms of one sort has the value of the selected one. -/
theorem exists_ifValue (P : Lib) (cond : Term .bool) (a b : Term s) :
    ∃ t : Term s, ifValue P cond ⟨s, a⟩ ⟨s, b⟩ = .ok ⟨s, t⟩ ∧
      ∀ σ, t.eval σ = if cond.eval σ = true then a.eval σ else b.eval σ := by
  rw [ifValue]
  dsimp only
  split
  · rename_i h
    exact ⟨a, rfl, fun σ => by rw [eval_of_simplify_isLit h σ, if_pos rfl]⟩
  split
  · rename_i h
    exact ⟨b, rfl, fun σ => by rw [eval_of_simplify_isLit h σ, if_neg Bool.false_ne_true]⟩
  rw [if_neg (by simp [Value.size]), definitelyEqual_terms]
  cases h : Value.sameClass ⟨s, a⟩ ⟨s, b⟩ && (P.simplify (.eq a b)).isLit true with
  | true =>
    have hab := eval_eq_of_isLit (Bool.and_eq_true_iff.1 h).2
    exact ⟨a, rfl, fun σ => by rw [hab σ, ite_self]⟩
  | false =>
    refine ⟨.ite (P.simplify cond) a b, ?_, fun σ => ?_⟩
    · show (if h : s = s then _ else _) = _
      rw [dif_pos rfl]
      rfl
    · rw [Term.eval_ite, P.eval_simplify]

theorem ifTerm_eval (cond : Term .bool) (a b : Term s) (σ : Env) :
    (ifTerm P cond a b).eval σ = if cond.eval σ = true then a.eval σ else b.eval σ := by
  rw [ifTerm]
  split
  · rename_i h
    rw [eval_of_simplify_isLit h σ, if_pos rfl]
  split
  · rename_i h
    rw [eval_of_simplify_isLit h σ, if_neg Bool.false_ne_true]
  split
  · rename_i h
    rw [eval_eq_of_isLit (Bool.and_eq_true_iff.1 h).2 σ, ite_self]
  · rw [Term.eval_ite, P.eval_simplify]

/-- A partial evaluation keeps the value where the assertions hold. -/
theorem partialEval_eval {Γ : List (Term .bool)} {σ : Env} (hΓ : Holds σ Γ) (t : Term s) :
    (partialEval P Γ t).eval σ = t.eval σ := by
  induction t with
  | ite c a b _ iha ihb =>
    show (if P.implies Γ c then partialEval P Γ a
      else if P.implies Γ (.not c) then partialEval P Γ b
      else ifTerm P c (partialEval P Γ a) (partialEval P Γ b)).eval σ = _
    rw [Term.eval_ite]
    split
    · rename_i h
      rw [iha, P.implies_iff.1 h σ hΓ, if_pos rfl]
    split
    · rename_i h
      have hc : c.eval σ = false := by simpa using P.implies_iff.1 h σ hΓ
      rw [ihb, hc, if_neg Bool.false_ne_true]
    · rw [ifTerm_eval, iha, ihb]
  | lit | var | nil => rfl
  | app f xs s ih => exact congrArg (σ.fn f · s) ih
  | cons a xs iha ihxs => exact congrArg₂ List.cons iha ihxs
  | not a ih => exact congrArg Bool.not ih
  | and a b iha ihb => exact congrArg₂ Bool.and iha ihb
  | or a b iha ihb => exact congrArg₂ Bool.or iha ihb
  | xor a b iha ihb => exact congrArg₂ Bool.xor iha ihb
  | eq a b iha ihb => exact congrArg₂ (fun x y => decide (x = y)) iha ihb
  | bin op a b iha ihb => exact congrArg₂ op.apply iha ihb
  | cmp op a b iha ihb => exact congrArg₂ op.apply iha ihb
  | addFits signed a b iha ihb => exact congrArg₂ (Smt.addFits signed) iha ihb
  | extract low len a ih => exact congrArg (BitVec.extractLsb' low len) ih
  | zeroExt len a ih => exact congrArg (BitVec.setWidth len) ih
  | signExt len a ih => exact congrArg (BitVec.signExtend len) ih

/-- `Pointer.ite` of two pointers keeps both of them. -/
theorem iteObj_ptr (p q : Pointer) (cond : Term .bool) :
    ∃ t, p.iteObj P (.ptr q) cond = .ok (.ite cond p q t p.type) := by
  obtain ⟨t, ht, -⟩ := exists_ifValue P cond (p.name P) (q.name P)
  refine ⟨t, ?_⟩
  show (ifName P cond (p.name P) ⟨_, q.name P⟩ >>= _) = _
  rw [ifName, ht]
  rfl

/-- `Pointer.ite` of a pointer and a word takes the word for a pointer. -/
theorem iteObj_word (p : Pointer) (u : Term (.bv 64)) (cond : Term .bool) :
    ∃ t, p.iteObj P (.expr ⟨.bv 64, u⟩) cond = .ok (.ite cond p (.raw u p.type) t p.type) := by
  obtain ⟨t, ht, -⟩ := exists_ifValue P cond (p.name P) u
  refine ⟨t, ?_⟩
  show (ifName P cond (p.name P) ⟨_, u⟩ >>= _) = _
  rw [ifName, ht]
  rfl

end L4Thread.Irpy
