import L4Thread.Lib.Llvm
import L4Thread.Theory.Symbolic

/-!
# Integer instructions of the evaluator

The evaluator keeps an integer of one bit as a Boolean and any other as a bit-vector. An instruction
agrees with the language if, under an assignment that satisfies the assertions of the solver and for
which the result is defined, it evaluates to a term of that kind with that result as its value.
-/

namespace L4Thread.Irpy

open Smt Llvm

/-- The sort of the integers of a width. -/
abbrev intSort : Nat → Srt
  | 1 => .bool
  | w => .bv w

abbrev IntTerm (w : Nat) := Term (intSort w)

/-- The integer that a term stands for. -/
def IntTerm.num (σ : Env) : {w : Nat} → IntTerm w → BitVec w
  | 0, t => t.eval σ
  | 1, t => BitVec.ofBool (t.eval σ)
  | _ + 2, t => t.eval σ

/-- The operand as the evaluator has it. -/
def IntTerm.value {w : Nat} (t : IntTerm w) : Value := ⟨intSort w, t⟩

def flags : BinOp → Flags
  | .add nuw nsw | .sub nuw nsw | .mul nuw nsw | .shl nuw nsw => ⟨nuw, nsw, false⟩
  | .udiv exact | .sdiv exact | .lshr exact | .ashr exact => ⟨false, false, exact⟩
  | _ => .none

section

variable (P : Lib)

/-- The function of the evaluator for a binary operation. -/
def evalBin (op : BinOp) (w : Nat) (a b : Value) : Py Value :=
  let t := Ty.int w
  match op with
  | .add _ _ => add P t a t b t (flags op)
  | .sub _ _ => sub t a t b t (flags op)
  | .mul _ _ => mul t a t b t (flags op)
  | .udiv _ => udiv P t a t b t (flags op)
  | .sdiv _ => sdiv P t a t b t (flags op)
  | .urem => urem P t a t b t (flags op)
  | .srem => srem P t a t b t (flags op)
  | .shl _ _ => shl P t a t b t (flags op)
  | .lshr _ => lshr P t a t b t (flags op)
  | .ashr _ => ashr P t a t b t (flags op)
  | .and => and_ P t a t b t
  | .or => or_ P t a t b t
  | .xor => xor P t a t b t

/-- The function of the evaluator for a predicate. -/
def evalPred (p : Pred) (w : Nat) (a b : Value) : Py Value :=
  let t := Ty.int w
  match p with
  | .eq => eq P (.expr a) t (.expr b) t
  | .ne => ne P (.expr a) t (.expr b) t
  | .ugt => ugt a t b t
  | .uge => uge a t b t
  | .ult => ult a t b t
  | .ule => ule a t b t
  | .sgt => sgt a t b t
  | .sge => sge a t b t
  | .slt => slt a t b t
  | .sle => sle a t b t

/-- A result of the evaluator that has to be a term. -/
def asValue : Obj → Py Value
  | .expr v => pure v
  | _ => throw .value

def evalInstr : {w : Nat} → Instr IntTerm w → Py Value
  | w, .bin op a b => evalBin P op w a.value b.value
  | _, .icmp (w := w) p a b => evalPred P p w a.value b.value
  | w, .trunc (v := v) _ _ a => trunc (.int w) a.value (.int v)
  | w, .zext (v := v) _ _ a => zext P (.int w) a.value (.int v)
  | w, .sext (v := v) _ _ a => sext P (.int w) a.value (.int v)
  | w, .select c a b => do
    asValue (← select P (.int w) c.value (.int 1) (.expr a.value) (.int w) (.expr b.value) (.int w))

end

/-- The evaluation returns an integer with this value. -/
def Yields {w : Nat} (x : Py Value) (c : Ctx) (σ : Env) (r : BitVec w) : Prop :=
  ∃ (t : IntTerm w) (d : Ctx), x c = .ok t.value d ∧ t.num σ = r

/-! ## Operands as terms of the solver -/

section

variable {w : Nat} {σ : Env} {c : Ctx} {r : BitVec w}

theorem IntTerm.exists_bv (hw : w ≠ 1) (t : IntTerm w) :
    ∃ u : Term (.bv w), t.value = ⟨.bv w, u⟩ ∧ ∀ σ, t.num σ = u.eval σ := by
  match w, hw with
  | 0, _ => exact ⟨t, rfl, fun _ => rfl⟩
  | _ + 2, _ => exact ⟨t, rfl, fun _ => rfl⟩

theorem exists_intTerm (hw : w ≠ 1) (u : Term (.bv w)) :
    ∃ t : IntTerm w, t.value = ⟨.bv w, u⟩ ∧ ∀ σ, t.num σ = u.eval σ := by
  match w, hw with
  | 0, _ => exact ⟨u, rfl, fun _ => rfl⟩
  | _ + 2, _ => exact ⟨u, rfl, fun _ => rfl⟩

theorem yields_iff_bv (hw : w ≠ 1) {x : Py Value} :
    Yields x c σ r ↔ ∃ (u : Term (.bv w)) (d : Ctx), x c = .ok ⟨.bv w, u⟩ d ∧ u.eval σ = r := by
  constructor
  · rintro ⟨t, d, hx, ht⟩
    obtain ⟨u, hu, hnum⟩ := t.exists_bv hw
    exact ⟨u, d, hu ▸ hx, hnum σ ▸ ht⟩
  · rintro ⟨u, d, hx, hu⟩
    obtain ⟨t, ht, hnum⟩ := exists_intTerm hw u
    exact ⟨t, d, ht ▸ hx, (hnum σ).trans hu⟩

theorem yields_bv (hw : w ≠ 1) (u : Term (.bv w)) :
    Yields (ofExcept (.ok ⟨_, u⟩)) c σ r ↔ u.eval σ = r := by
  rw [yields_iff_bv hw]
  constructor
  · rintro ⟨t, d, ht, rfl⟩
    cases ht
    rfl
  · exact fun h => ⟨u, c, rfl, h⟩

theorem yields_bool {r : BitVec 1} (u : Term .bool) :
    Yields (ofExcept (.ok ⟨_, u⟩)) c σ r ↔ BitVec.ofBool (u.eval σ) = r := by
  constructor
  · rintro ⟨t, d, ht, rfl⟩
    cases ht
    rfl
  · exact fun h => ⟨u, c, rfl, h⟩

theorem not_yields_error (e : Exc) : ¬Yields (ofExcept (.error e)) c σ r := by
  rintro ⟨t, d, ht, -⟩
  cases ht

theorem yields_check {b : Bool} {f : Unit → Py Value} :
    Yields (check b >>= f) c σ r ↔ b = true ∧ Yields (f ()) c σ r := by
  cases b with
  | true => exact ⟨fun h => ⟨rfl, h⟩, fun h => h.2⟩
  | false =>
    constructor
    · rintro ⟨_, _, h, -⟩
      cases h
    · rintro ⟨h, -⟩
      cases h

/-! ## Operators -/

theorem sameWidth_bv {α : Type} (x y : Term (.bv w))
    (f : {w : Nat} → Term (.bv w) → Term (.bv w) → α) :
    sameWidth ⟨_, x⟩ ⟨_, y⟩ f = .ok (f x y) := by
  simp [sameWidth]

/-- No operator on bit-vectors takes a Boolean. -/
theorem sameWidth_bool {α : Type} (x : IntTerm 1) (v : Value)
    (f : {w : Nat} → Term (.bv w) → Term (.bv w) → α) : sameWidth x.value v f = .error .z3 :=
  rfl

theorem sameWidth_bool_right {α : Type} (v : Value) (x : IntTerm 1)
    (f : {w : Nat} → Term (.bv w) → Term (.bv w) → α) : sameWidth v x.value f = .error .z3 := by
  obtain ⟨s, t⟩ := v
  cases s <;> rfl

theorem exists_eqTerm (a b : IntTerm w) :
    ∃ t, eqTerm a.value b.value = .ok t ∧ ∀ σ, t.eval σ = decide (a.num σ = b.num σ) := by
  refine ⟨.eq a b, dif_pos rfl, fun σ => ?_⟩
  match w with
  | 0 => rfl
  | 1 =>
    rw [Term.eval]
    have key : ∀ x y : Bool, x = y ↔ BitVec.ofBool x = BitVec.ofBool y := by decide
    exact decide_eq_decide.2 (key _ _)
  | _ + 2 => rfl

/-- Where the result is defined, the operation of the solver has it, but not on one bit. -/
theorem yields_bvBin {op : BinOp} {a b : IntTerm w} (h : op.exec (a.num σ) (b.num σ) = some r) :
    Yields (ofExcept (bvBin op.op a.value b.value)) c σ r ↔ w ≠ 1 := by
  constructor
  · rintro hy rfl
    exact not_yields_error _ hy
  · intro hw
    obtain ⟨x, ha, hx⟩ := a.exists_bv hw
    obtain ⟨y, hb, hy⟩ := b.exists_bv hw
    rw [ha, hb, bvBin, sameWidth_bv, yields_bv hw, Term.eval, ← hx, ← hy]
    exact BinOp.apply_of_exec h

/-- Every assignment that satisfies the assertions of the solver has the property. -/
def Entails (c : Ctx) (p : Env → Prop) : Prop := ∀ τ, Holds τ c.assertions → p τ

theorem implies_iff_entails {P : Lib} {t : Term .bool} :
    P.implies c.assertions t = true ↔ Entails c fun τ => t.eval τ = true :=
  P.implies_iff

/-- The check of a flag of the addition. -/
theorem yields_flag {P : Lib} {flag signed : Bool} {a b : IntTerm w} (hw : w ≠ 1) {x : Py Value} :
    Yields (if flag then do
        let t ← ofExcept (bvaddNoOverflow a.value b.value signed)
        let ok ← pathConditionImplies P t
        check ok
        x
      else x) c σ r ↔
      (flag = true → Entails c fun τ => addFits signed (a.num τ) (b.num τ) = true) ∧
        Yields x c σ r := by
  cases flag with
  | false => simp
  | true =>
    obtain ⟨s, ha, hs⟩ := a.exists_bv hw
    obtain ⟨t, hb, ht⟩ := b.exists_bv hw
    simp only [if_true, ha, hb, bvaddNoOverflow, sameWidth_bv, Py.ofExcept_ok_bind, true_implies,
      hs, ht]
    show Yields (check (P.implies c.assertions _) >>= fun _ => x) c σ r ↔ _
    rw [yields_check, implies_iff_entails]
    rfl

variable {P : Lib} {a b : IntTerm w} {f : Flags}

theorem yields_add {nuw nsw : Bool} (h : (BinOp.add nuw nsw).exec (a.num σ) (b.num σ) = some r) :
    Yields (add P (.int w) a.value (.int w) b.value (.int w) f) c σ r ↔
      w ≠ 1 ∧ (f.nuw = true → Entails c fun τ => addFits false (a.num τ) (b.num τ) = true) ∧
        (f.nsw = true → Entails c fun τ => addFits true (a.num τ) (b.num τ) = true) := by
  rw [add]
  simp only [checkTypes, bind_assoc, Ty.int_eq_int, beq_self_eq_true, yields_check, true_and]
  by_cases hw : w = 1
  · subst hw
    refine iff_of_false ?_ fun h => h.1 rfl
    cases f.nuw <;> cases f.nsw <;> exact not_yields_error _
  · have hsum : Yields (ofExcept (bvBin .add a.value b.value)) c σ r ↔ w ≠ 1 := yields_bvBin h
    rw [yields_flag hw, yields_flag hw, hsum]
    tauto

theorem yields_plain {op : BinOp} (h : op.exec (a.num σ) (b.num σ) = some r) :
    Yields (plain op.op (.int w) a.value (.int w) b.value (.int w) f) c σ r ↔
      w ≠ 1 ∧ f.nuw = false ∧ f.nsw = false := by
  rw [plain]
  simp only [checkTypes, bind_assoc, Ty.int_eq_int, beq_self_eq_true, yields_check, yields_bvBin h, true_and,
    Bool.and_eq_true, Bool.not_eq_true', and_comm]

theorem exists_eqZero (hw : w ≠ 1) (b : IntTerm w) :
    ∃ t, eqTerm b.value (.bvVal w 0) = .ok t ∧ ∀ σ, t.eval σ = decide (b.num σ = 0) := by
  obtain ⟨y, hb, hy⟩ := b.exists_bv hw
  refine ⟨.eq y (.lit 0), ?_, fun σ => ?_⟩
  · rw [hb]
    exact dif_pos rfl
  · rw [hy, Term.eval, Term.eval_lit]

theorem yields_division {op : BinOp} (h : op.exec (a.num σ) (b.num σ) = some r) :
    Yields (division P op.op (.int w) a.value (.int w) b.value (.int w) f) c σ r ↔
      w ≠ 1 ∧ (f.nuw = false ∧ f.nsw = false ∧ f.exact = false) ∧
        Entails c fun τ => b.num τ ≠ 0 := by
  rw [division]
  simp only [checkTypes, bind_assoc, Ty.int_eq_int, beq_self_eq_true, yields_check, true_and, Ty.size,
    Bool.and_eq_true, Bool.not_eq_true', and_assoc]
  by_cases hw : w = 1
  · subst hw
    exact iff_of_false (fun h => not_yields_error _ h.2.2.2) fun h => h.1 rfl
  · obtain ⟨t, ht, heval⟩ := exists_eqZero hw b
    rw [ht, Py.ofExcept_ok_bind]
    have hcheck : ∀ x : Py Value, Yields (pathConditionImplies P (.not t) >>= fun ok =>
        check ok >>= fun _ => x) c σ r ↔ (Entails c fun τ => b.num τ ≠ 0) ∧ Yields x c σ r := by
      intro x
      show Yields (check (P.implies c.assertions (.not t)) >>= fun _ => x) c σ r ↔ _
      rw [yields_check, implies_iff_entails]
      simp only [Term.eval_not, heval, Bool.not_eq_true', decide_eq_false_iff_not]
    rw [hcheck, yields_bvBin h]
    tauto

theorem exists_getPoison (hw : w ≠ 1) (c : Ctx) :
    ∃ n d, getPoison w c = .ok ⟨_, .var n (.bv w)⟩ d ∧ d.assertions = c.assertions := by
  rw [getPoison, Py.bind_apply, freshName_apply]
  simp only [if_neg hw]
  exact ⟨_, _, rfl, rfl⟩

/-- The condition of a shift. -/
theorem ult_width {y : BitVec w} (h : y.toNat < w) :
    BvCmp.apply .ult y (BitVec.ofNat w w) = true := by
  rw [BvCmp.apply, BitVec.ult, BitVec.toNat_ofNat, Nat.mod_eq_of_lt Nat.lt_two_pow_self]
  exact decide_eq_true h

theorem yields_shift {op : BinOp} (hσ : Holds σ c.assertions) (hlt : (b.num σ).toNat < w)
    (h : op.exec (a.num σ) (b.num σ) = some r) :
    Yields (shift P op.op (.int w) a.value (.int w) b.value (.int w) f) c σ r ↔
      w ≠ 1 ∧ f.nuw = false ∧ f.nsw = false ∧ f.exact = false := by
  rw [shift]
  cases hexact : f.exact with
  | true => exact iff_of_false (fun ⟨_, _, h, _⟩ => nomatch h) fun h => nomatch h.2.2.2
  | false =>
    rw [if_neg Bool.false_ne_true]
    simp only [checkTypes, bind_assoc, Ty.int_eq_int, beq_self_eq_true, yields_check, true_and, Ty.size,
      Bool.and_eq_true, Bool.not_eq_true', and_true]
    by_cases hw : w = 1
    · subst hw
      exact iff_of_false (fun h => not_yields_error _ h.2) fun h => h.1 rfl
    · obtain ⟨x, ha, hx⟩ := a.exists_bv hw
      obtain ⟨y, hb, hy⟩ := b.exists_bv hw
      obtain ⟨n, d, hpoison, hd⟩ := exists_getPoison hw c
      obtain ⟨t, ht, heval⟩ := exists_ifValue P (.cmp .ult y (.lit (BitVec.ofNat w w)))
        (.bin op.op x y) (.var n (.bv w))
      have hval : t.eval σ = r := by
        rw [heval, if_pos, Term.eval, ← hx, ← hy, BinOp.apply_of_exec h]
        rw [Term.eval, Term.eval_lit, ← hy]
        exact ult_width hlt
      have hrun : Yields (do
          let cond ← ofExcept (bvCmp .ult b.value (.bvVal w w))
          let cond ← ofExcept (boolTerm cond)
          let shifted ← ofExcept (bvBin op.op a.value b.value)
          let poison ← getPoison w
          let v ← ofExcept (ifValue P cond shifted poison)
          pure ⟨v.sort, partialEval P (← get).assertions v.term⟩) c σ r := by
        refine (yields_iff_bv hw).2 ⟨partialEval P d.assertions t, d, ?_, ?_⟩
        · rw [ha, hb, bvCmp, Value.bvVal, sameWidth_bv, bvBin, sameWidth_bv]
          simp only [Py.ofExcept_ok_bind, boolTerm]
          rw [Py.bind_apply, hpoison]
          dsimp only
          rw [ht]
          rfl
        · rw [partialEval_eval (hd ▸ hσ), hval]
      exact ⟨fun h => ⟨hw, h.1⟩, fun h => ⟨h.2, hrun⟩⟩

/-- A logical operation has a Boolean form of its own. -/
theorem yields_logical {op : BinOp} {bop : Term .bool → Term .bool → Term .bool}
    (hbop : ∀ x y : Term .bool, BitVec.ofBool ((bop x y).eval σ) =
      op.op.apply (BitVec.ofBool (x.eval σ)) (BitVec.ofBool (y.eval σ)))
    (h : op.exec (a.num σ) (b.num σ) = some r) :
    Yields (logical P bop op.op (.int w) a.value (.int w) b.value (.int w)) c σ r := by
  rw [logical]
  simp only [checkTypes, bind_assoc, Ty.int_eq_int, beq_self_eq_true, yields_check, true_and]
  by_cases hw : w = 1
  · subst hw
    rw [if_pos (.inl rfl)]
    have hbool : ∀ t : IntTerm 1, asBool P t.value = .ok t := fun _ => rfl
    rw [hbool, hbool]
    simp only [Py.ofExcept_ok_bind, Ty.size, beq_self_eq_true, yields_check, true_and]
    refine ⟨bop a b, c, rfl, ?_⟩
    exact (hbop a b).trans (BinOp.apply_of_exec h)
  · have hsort : ∀ t : IntTerm w, t.value.sort ≠ .bool := by
      intro t
      obtain ⟨u, hu, -⟩ := t.exists_bv hw
      rw [hu]
      exact Srt.noConfusion
    rw [if_neg (by simp [hsort])]
    exact (yields_bvBin h).2 hw

/-! ## Predicates, casts and `select` -/

theorem yields_eq {r : BitVec 1} :
    Yields (eq P (.expr a.value) (.int w) (.expr b.value) (.int w)) c σ r ↔
      BitVec.ofBool (Pred.eq.holds (a.num σ) (b.num σ)) = r := by
  obtain ⟨t, ht, heval⟩ := exists_eqTerm a b
  rw [eq]
  simp only [Ty.int_eq_int, beq_self_eq_true, yields_check, true_and, ht, Py.ofExcept_ok_bind]
  show Yields (ofExcept (.ok ⟨_, t⟩)) c σ r ↔ _
  rw [yields_bool, heval]
  rfl

theorem yields_ne {r : BitVec 1} :
    Yields (ne P (.expr a.value) (.int w) (.expr b.value) (.int w)) c σ r ↔
      BitVec.ofBool (Pred.ne.holds (a.num σ) (b.num σ)) = r := by
  obtain ⟨t, ht, heval⟩ := exists_eqTerm a b
  rw [ne, eq]
  simp only [Ty.int_eq_int, beq_self_eq_true, bind_assoc, yields_check, true_and, ht, Py.ofExcept_ok_bind,
    pure_bind, boolTerm]
  show Yields (ofExcept (.ok ⟨_, .not t⟩)) c σ r ↔ _
  rw [yields_bool, Term.eval_not, heval]
  rfl

/-- The comparisons need bit-vectors, and the operator of the predicate. -/
theorem yields_compare {op : BvCmp} {r : BitVec 1} :
    Yields (compare op a.value (.int w) b.value (.int w)) c σ r ↔
      w ≠ 1 ∧ BitVec.ofBool (op.apply (a.num σ) (b.num σ)) = r := by
  rw [compare]
  simp only [Ty.int_eq_int, beq_self_eq_true, yields_check, true_and]
  by_cases hw : w = 1
  · subst hw
    exact iff_of_false (not_yields_error _) fun h => h.1 rfl
  · obtain ⟨x, ha, hx⟩ := a.exists_bv hw
    obtain ⟨y, hb, hy⟩ := b.exists_bv hw
    rw [ha, hb, bvCmp, sameWidth_bv, yields_bool, Term.eval, ← hx, ← hy]
    exact (and_iff_right hw).symm

theorem yields_trunc {v : Nat} (pos : 0 < w) (lt : w < v) (a : IntTerm v) :
    Yields (trunc (.int w) a.value (.int v)) c σ r ↔ w ≠ 1 ∧ (a.num σ).setWidth w = r := by
  obtain ⟨x, ha, hx⟩ := a.exists_bv (by omega)
  rw [trunc, ha]
  simp only [integerSize, pure_bind, yields_check, decide_eq_true_eq, if_pos (And.intro pos lt.le),
    and_iff_right lt]
  by_cases hw : w = 1
  · subst hw
    refine iff_of_false ?_ fun h => h.1 rfl
    rintro ⟨t, d, ht, -⟩
    cases ht
  · show Yields (ofExcept (.ok ⟨_, .extract 0 w x⟩)) c σ r ↔ _
    rw [yields_bv hw, Term.eval, ← hx, and_iff_right hw]
    rw [BitVec.setWidth_eq_extractLsb' lt.le]

/-- The conversion of a Boolean, which both extensions have. -/
theorem yields_extendBool (hw : w ≠ 1) (t : Term .bool) :
    Yields (ofExcept (ifValue P t (.bvVal w 1) (.bvVal w 0))) c σ r ↔
      (BitVec.ofBool (t.eval σ)).setWidth w = r := by
  obtain ⟨u, hu, heval⟩ := exists_ifValue P t (.lit (BitVec.ofNat w 1) : Term (.bv w))
    (.lit (BitVec.ofNat w 0))
  rw [Value.bvVal, Value.bvVal, hu, yields_bv hw, heval, Term.eval_lit, Term.eval_lit]
  have hbit : ∀ b : Bool,
      (if b = true then BitVec.ofNat w 1 else BitVec.ofNat w 0) = (BitVec.ofBool b).setWidth w := by
    rintro (_ | _)
    · simp
    · exact BitVec.eq_of_toNat_eq (by simp)
  rw [← hbit]

theorem yields_zext {v : Nat} (pos : 0 < v) (lt : v < w) (a : IntTerm v) :
    Yields (zext P (.int w) a.value (.int v)) c σ r ↔ (a.num σ).setWidth w = r := by
  have hw : w ≠ 1 := by omega
  rw [zext]
  simp only [integerSize, pure_bind, yields_check, decide_eq_true_eq, and_iff_right lt]
  by_cases hv : v = 1
  · subst hv
    exact yields_extendBool hw a
  · obtain ⟨x, ha, hx⟩ := a.exists_bv hv
    rw [ha, hx]
    dsimp only
    rw [Nat.add_sub_cancel' lt.le]
    exact yields_bv hw (.zeroExt w x)

theorem yields_sext {v : Nat} (pos : 0 < v) (lt : v < w) (a : IntTerm v) :
    Yields (sext P (.int w) a.value (.int v)) c σ r ↔
      (if v = 1 then (a.num σ).setWidth w else (a.num σ).signExtend w) = r := by
  have hw : w ≠ 1 := by omega
  rw [sext]
  simp only [integerSize, pure_bind, yields_check, decide_eq_true_eq, and_iff_right lt]
  by_cases hv : v = 1
  · subst hv
    exact yields_extendBool hw a
  · obtain ⟨x, ha, hx⟩ := a.exists_bv hv
    rw [if_neg hv, ha, hx]
    dsimp only
    rw [Nat.add_sub_cancel' lt.le]
    exact yields_bv hw (.signExt w x)

theorem IntTerm.num_congr {t u : IntTerm w} (h : t.eval σ = u.eval σ) : t.num σ = u.num σ := by
  match w with
  | 0 => exact h
  | 1 => exact congrArg BitVec.ofBool h
  | _ + 2 => exact h

theorem yields_select (cond : IntTerm 1) :
    Yields (evalInstr P (.select cond a b)) c σ r ↔
      isPoison cond = false ∧ (if cond.num σ = 1 then a.num σ else b.num σ) = r := by
  rw [evalInstr, select]
  simp only [bind_assoc, integerSize, pure_bind, yields_check, Ty.int_eq_int, beq_self_eq_true, true_and,
    Bool.not_eq_true']
  refine and_congr Iff.rfl ?_
  obtain ⟨t, ht, heval⟩ := exists_ifValue P cond a b
  have hif : If P cond (.expr a.value) (.expr b.value) = .ok (.expr ⟨_, t⟩) := by
    unfold If IntTerm.value
    dsimp only
    rw [ht]
    rfl
  have hnum : IntTerm.num σ t = if cond.num σ = 1 then a.num σ else b.num σ := by
    have hcond : ∀ x : Bool, BitVec.ofBool x = 1 ↔ x = true := by decide
    split
    · rename_i h
      exact IntTerm.num_congr (by rw [heval, if_pos ((hcond _).1 h)])
    · rename_i h
      exact IntTerm.num_congr (by rw [heval, if_neg fun h' => h ((hcond _).2 h')])
  show Yields (ofExcept (If P cond _ _) >>= asValue) c σ r ↔ _
  rw [hif, ← hnum]
  constructor
  · rintro ⟨u, d, hu, rfl⟩
    cases hu
    rfl
  · exact fun h => ⟨t, c, rfl, h⟩

end

/-! ## Agreement with the language -/

section

variable {w : Nat} {P : Lib} {c : Ctx} {σ : Env}

/-- An instruction agrees with the language under an assignment: it returns the result that is
defined there. -/
def AgreesAt (P : Lib) (c : Ctx) (i : Instr IntTerm w) (σ : Env) : Prop :=
  Holds σ c.assertions → ∀ r, (i.map (IntTerm.num σ)).exec = some r → Yields (evalInstr P i) c σ r

/-- What the evaluator supports of a binary operation: not the arithmetic of one bit, of the flags
only those of the addition, which like a divisor other than zero have to follow from the
assertions. -/
def BinSupported (c : Ctx) (op : BinOp) (a b : IntTerm w) : Prop :=
  match op with
  | .add nuw nsw =>
    w ≠ 1 ∧ (nuw = true → Entails c fun τ => addFits false (a.num τ) (b.num τ) = true) ∧
      (nsw = true → Entails c fun τ => addFits true (a.num τ) (b.num τ) = true)
  | .sub nuw nsw | .mul nuw nsw | .shl nuw nsw => w ≠ 1 ∧ nuw = false ∧ nsw = false
  | .udiv exact | .sdiv exact => w ≠ 1 ∧ exact = false ∧ Entails c fun τ => b.num τ ≠ 0
  | .urem | .srem => w ≠ 1 ∧ Entails c fun τ => b.num τ ≠ 0
  | .lshr exact | .ashr exact => w ≠ 1 ∧ exact = false
  | .and | .or | .xor => True

/-- What the evaluator supports of an instruction. `sle` is a strict comparison, and `sext` does not
extend the sign of one bit. -/
def Supported (c : Ctx) (σ : Env) : {w : Nat} → Instr IntTerm w → Prop
  | _, .bin op a b => BinSupported c op a b
  | _, .icmp .eq _ _ | _, .icmp .ne _ _ => True
  | _, .icmp (w := v) .sle a b => v ≠ 1 ∧ a.num σ ≠ b.num σ
  | _, .icmp (w := v) _ _ _ => v ≠ 1
  | w, .trunc _ _ _ => w ≠ 1
  | _, .zext _ _ _ => True
  | _, .sext (v := v) _ _ a => v = 1 → a.num σ = 0
  | _, .select cond _ _ => isPoison cond = false

theorem ofBool_and (x y : Term .bool) :
    BitVec.ofBool ((x.and y).eval σ) =
      BvOp.and.apply (BitVec.ofBool (x.eval σ)) (BitVec.ofBool (y.eval σ)) := by
  rw [Term.eval]
  exact BitVec.ofBool_and_ofBool.symm

theorem ofBool_or (x y : Term .bool) :
    BitVec.ofBool ((x.or y).eval σ) =
      BvOp.or.apply (BitVec.ofBool (x.eval σ)) (BitVec.ofBool (y.eval σ)) := by
  rw [Term.eval]
  exact BitVec.ofBool_or_ofBool.symm

theorem ofBool_xor (x y : Term .bool) :
    BitVec.ofBool ((x.xor y).eval σ) =
      BvOp.xor.apply (BitVec.ofBool (x.eval σ)) (BitVec.ofBool (y.eval σ)) := by
  rw [Term.eval]
  exact BitVec.ofBool_xor_ofBool.symm

theorem yields_evalBin (hσ : Holds σ c.assertions) {op : BinOp} {a b : IntTerm w} {r : BitVec w}
    (h : op.exec (a.num σ) (b.num σ) = some r) :
    Yields (evalBin P op w a.value b.value) c σ r ↔ BinSupported c op a b := by
  have hdef := BinOp.defined_of_exec h
  cases op with
  | add nuw nsw => exact yields_add h
  | sub nuw nsw => exact yields_plain h
  | mul nuw nsw => exact yields_plain h
  | udiv exact =>
    refine (yields_division h).trans ?_
    simp only [flags, BinSupported, true_and]
  | sdiv exact =>
    refine (yields_division h).trans ?_
    simp only [flags, BinSupported, true_and]
  | urem =>
    refine (yields_division h).trans ?_
    simp only [flags, Flags.none, BinSupported, true_and]
  | srem =>
    refine (yields_division h).trans ?_
    simp only [flags, Flags.none, BinSupported, true_and]
  | shl nuw nsw =>
    have hshl := yields_shift (P := P) (f := ⟨nuw, nsw, false⟩) hσ hdef h
    refine Iff.trans hshl ?_
    simp only [BinSupported, and_true]
  | lshr exact =>
    refine (yields_shift hσ hdef h).trans ?_
    simp only [flags, BinSupported, true_and]
  | ashr exact =>
    refine (yields_shift hσ hdef h).trans ?_
    simp only [flags, BinSupported, true_and]
  | and => exact iff_of_true (yields_logical ofBool_and h) trivial
  | or => exact iff_of_true (yields_logical ofBool_or h) trivial
  | xor => exact iff_of_true (yields_logical ofBool_xor h) trivial

/-- The strict comparison agrees with the one that is not, apart from equal integers. -/
theorem slt_eq_sle_iff (x y : BitVec w) : x.slt y = x.sle y ↔ x ≠ y := by
  rw [BitVec.slt, BitVec.sle, decide_eq_decide, ne_eq, ← BitVec.toInt_inj]
  omega

theorem yields_evalPred {p : Pred} {a b : IntTerm w} :
    Yields (evalPred P p w a.value b.value) c σ (BitVec.ofBool (p.holds (a.num σ) (b.num σ))) ↔
      Supported c σ (.icmp p a b) := by
  cases p with
  | eq => exact iff_of_true (yields_eq.2 rfl) trivial
  | ne => exact iff_of_true (yields_ne.2 rfl) trivial
  | sle =>
    refine yields_compare.trans (and_congr Iff.rfl ?_)
    have hinj : ∀ x y : Bool, BitVec.ofBool x = BitVec.ofBool y ↔ x = y := by decide
    exact (hinj _ _).trans (slt_eq_sle_iff _ _)
  | _ => exact yields_compare.trans (and_iff_left rfl)

/-- The extension of a set bit is only the same for the value zero. -/
theorem setWidth_eq_signExtend_iff {v : Nat} (lt : v < w) (x : BitVec v) :
    (if v = 1 then x.setWidth w else x.signExtend w) = x.signExtend w ↔ (v = 1 → x = 0) := by
  split
  · rename_i hv
    subst hv
    refine Iff.trans ?_ (forall_prop_of_true rfl).symm
    obtain rfl | rfl : x = 0 ∨ x = 1 := by revert x; decide
    · have hmsb : (0 : BitVec 1).msb = false := rfl
      exact iff_of_true (BitVec.signExtend_eq_setWidth_of_msb_false hmsb).symm rfl
    · refine iff_of_false (fun h => ?_) (by decide)
      -- the second bit
      have hbit : (BitVec.signExtend w 1#1).getLsbD 1 = (BitVec.setWidth w 1#1).getLsbD 1 :=
        congrArg (BitVec.getLsbD · 1) h.symm
      rw [BitVec.getLsbD_signExtend, BitVec.getLsbD_setWidth, if_neg (by omega),
        decide_eq_true lt] at hbit
      revert hbit
      decide
  · rename_i hv
    exact iff_of_true rfl fun h => absurd h hv

/-- Under an assignment an instruction agrees with the language if and only if the result is not
defined there, or the evaluator supports the instruction. -/
theorem agreesAt_iff (P : Lib) (c : Ctx) (i : Instr IntTerm w) (σ : Env) :
    AgreesAt P c i σ ↔
      (Holds σ c.assertions → (i.map (IntTerm.num σ)).exec.isSome = true → Supported c σ i) := by
  refine imp_congr_right fun hσ => ?_
  rw [Option.isSome_iff_exists, forall_exists_index]
  refine forall_congr' fun r => imp_congr_right fun h => ?_
  cases i with
  | bin op a b => exact yields_evalBin hσ h
  | icmp p a b =>
    cases h
    exact yields_evalPred
  | trunc pos lt a =>
    cases h
    exact (yields_trunc pos lt a).trans (and_iff_left rfl)
  | zext pos lt a =>
    cases h
    exact iff_of_true ((yields_zext pos lt a).2 rfl) trivial
  | sext pos lt a =>
    cases h
    exact (yields_sext pos lt a).trans (setWidth_eq_signExtend_iff lt _)
  | select cond a b =>
    cases h
    exact (yields_select cond).trans (and_iff_left rfl)

/-- Two equal integers are less or equal, and the extension of a set bit is negative. -/
theorem exists_not_agreesAt :
    (∃ (P : Lib) (c : Ctx) (i : Instr IntTerm 1) (σ : Env), ¬AgreesAt P c i σ) ∧
      ∃ (P : Lib) (c : Ctx) (i : Instr IntTerm 8) (σ : Env), ¬AgreesAt P c i σ := by
  have hnew : ∀ σ, Holds σ Ctx.new.assertions := fun _ _ h => nomatch h
  let σ : Env := ⟨fun _ s => default, fun _ _ s => default⟩
  constructor
  · let five : IntTerm 8 := .lit 5#8
    refine ⟨Lib.ideal, .new, .icmp .sle five five, σ, fun h => ?_⟩
    obtain ⟨-, hslt⟩ := yields_compare.1 (h (hnew σ) _ rfl)
    revert hslt
    simp only [five, IntTerm.num, Term.eval_lit]
    decide
  · let bit : IntTerm 1 := .lit true
    refine ⟨Lib.ideal, .new, .sext (by decide) (by decide) bit, σ, fun h => ?_⟩
    have hsext := (yields_sext (by decide) (by decide) bit).1 (h (hnew σ) _ rfl)
    revert hsext
    simp only [bit, IntTerm.num, Term.eval_lit]
    decide

end

end L4Thread.Irpy
