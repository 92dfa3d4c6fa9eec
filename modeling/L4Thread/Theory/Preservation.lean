import L4Thread.Theory.Evaluation

/-!
# What emitted functions return

The evaluator returns one term for a call, whatever the branches it went through. Under every
assignment that satisfies the assertions of the solver the term has the value of the call. The
objects of a dictionary stand for the registers of the function, and a merge of two contexts keeps
this on the side that its condition selects.
-/

namespace L4Thread.Irpy

open Smt Llvm PyInstVisitor

variable {P : Lib} {σ : Env} {c d : Ctx} {w : Nat}

/-! ## Instructions -/

/-- The term has the integer as its value. -/
def Stands (σ : Env) (u : Value) (v : LlvmInt) : Prop :=
  ∃ t : IntTerm v.1, u = t.value ∧ t.num σ = v.2

theorem Stands.congr {u u' : Value} {v : LlvmInt} (h : Stands σ u v)
    (heq : u'.val σ = u.val σ) : Stands σ u' v := by
  obtain ⟨t, rfl, ht⟩ := h
  obtain ⟨s, t'⟩ := u'
  obtain ⟨rfl, hval⟩ := Sigma.mk.inj heq
  exact ⟨t', rfl, (IntTerm.num_congr (eq_of_heq hval)).trans ht⟩

/-- The instructions that the evaluator has the meaning of: `sle` is a strict comparison, the sign of
one bit is not extended, and what is truncated to one bit is no Boolean. -/
def Faithful {α : Nat → Type} : {w : Nat} → Instr α w → Prop
  | _, .icmp .sle _ _ => False
  | w, .trunc _ _ _ => w ≠ 1
  | _, .sext (v := v) _ _ _ => v ≠ 1
  | _, _ => True

section

variable {a b : IntTerm w} {f : Flags}

/-- The evaluation returns. -/
def Succeeds {α : Type} (x : Py α) (c : Ctx) : Prop := ∃ a d, x c = .ok a d

theorem succeeds_check {α : Type} {p : Bool} {x : Unit → Py α} :
    Succeeds (check p >>= x) c ↔ p = true ∧ Succeeds (x ()) c := by
  cases p with
  | true => exact (and_iff_right rfl).symm
  | false =>
    refine iff_of_false ?_ fun h => Bool.false_ne_true h.1
    rintro ⟨_, _, h⟩
    cases h

theorem not_succeeds_error {α β : Type} {e : Exc} {x : α → Py β} :
    ¬Succeeds (ofExcept (.error e) >>= x) c := by
  rintro ⟨_, _, h⟩
  cases h

/-- An operation of the solver returns if it is not on one bit. -/
theorem of_succeeds_bvBin {op : BvOp} (h : Succeeds (ofExcept (bvBin op a.value b.value)) c) :
    w ≠ 1 := by
  rintro rfl
  obtain ⟨_, _, h⟩ := h
  cases h

theorem succeeds_flag {flag signed : Bool} (hw : w ≠ 1) {x : Py Value} :
    Succeeds (if flag then do
        let t ← ofExcept (bvaddNoOverflow a.value b.value signed)
        let ok ← pathConditionImplies P t
        check ok
        x
      else x) c ↔
      (flag = true → Entails c fun τ => addFits signed (a.num τ) (b.num τ) = true) ∧
        Succeeds x c := by
  cases flag with
  | false => simp
  | true =>
    obtain ⟨s, ha, hs⟩ := a.exists_bv hw
    obtain ⟨t, hb, ht⟩ := b.exists_bv hw
    simp only [if_true, ha, hb, bvaddNoOverflow, sameWidth_bv, Py.ofExcept_ok_bind, true_implies,
      hs, ht]
    show Succeeds (check (P.implies c.assertions _) >>= fun _ => x) c ↔ _
    rw [succeeds_check, implies_iff_entails]
    rfl

theorem of_succeeds_add
    (h : Succeeds (add P (.int w) a.value (.int w) b.value (.int w) f) c) :
    w ≠ 1 ∧ (f.nuw = true → Entails c fun τ => addFits false (a.num τ) (b.num τ) = true) ∧
      (f.nsw = true → Entails c fun τ => addFits true (a.num τ) (b.num τ) = true) := by
  rw [add] at h
  simp only [checkTypes, bind_assoc, Ty.int_eq_int, beq_self_eq_true, succeeds_check,
    true_and] at h
  have hw : w ≠ 1 := by
    rintro rfl
    obtain ⟨_, _, h⟩ := h
    cases hnuw : f.nuw <;> cases hnsw : f.nsw <;> rw [hnuw, hnsw] at h <;> cases h
  rw [succeeds_flag hw, succeeds_flag hw] at h
  exact ⟨hw, h.1, h.2.1⟩

theorem of_succeeds_plain {op : BvOp}
    (h : Succeeds (plain op (.int w) a.value (.int w) b.value (.int w) f) c) :
    w ≠ 1 ∧ f.nuw = false ∧ f.nsw = false := by
  rw [plain] at h
  simp only [checkTypes, bind_assoc, Ty.int_eq_int, beq_self_eq_true, succeeds_check, true_and,
    Bool.and_eq_true, Bool.not_eq_true'] at h
  exact ⟨of_succeeds_bvBin h.2, h.1⟩

theorem of_succeeds_division {op : BvOp}
    (h : Succeeds (division P op (.int w) a.value (.int w) b.value (.int w) f) c) :
    w ≠ 1 ∧ f.exact = false ∧ Entails c fun τ => b.num τ ≠ 0 := by
  rw [division] at h
  simp only [checkTypes, bind_assoc, Ty.int_eq_int, beq_self_eq_true, succeeds_check, true_and,
    Ty.size, Bool.and_eq_true, Bool.not_eq_true'] at h
  obtain ⟨hflags, h⟩ := h
  have hw : w ≠ 1 := by
    rintro rfl
    exact not_succeeds_error h
  obtain ⟨t, ht, heval⟩ := exists_eqZero hw b
  rw [ht, Py.ofExcept_ok_bind] at h
  change Succeeds (check (P.implies c.assertions (.not t)) >>= fun _ => _) c at h
  rw [succeeds_check, implies_iff_entails] at h
  simp only [Term.eval_not, heval, Bool.not_eq_true', decide_eq_false_iff_not] at h
  exact ⟨hw, hflags.2, h.1⟩

theorem of_succeeds_shift {op : BvOp}
    (h : Succeeds (shift P op (.int w) a.value (.int w) b.value (.int w) f) c) :
    w ≠ 1 ∧ f.nuw = false ∧ f.nsw = false ∧ f.exact = false := by
  rw [shift] at h
  cases hexact : f.exact with
  | true =>
    rw [hexact] at h
    obtain ⟨_, _, h⟩ := h
    cases h
  | false =>
    rw [hexact, if_neg Bool.false_ne_true] at h
    simp only [checkTypes, bind_assoc, Ty.int_eq_int, beq_self_eq_true, succeeds_check, true_and,
      Bool.and_eq_true, Bool.not_eq_true'] at h
    refine ⟨?_, h.1.1, h.1.2, rfl⟩
    rintro rfl
    exact not_succeeds_error h.2

theorem of_succeeds_compare {op : BvCmp}
    (h : Succeeds (compare op a.value (.int w) b.value (.int w)) c) : w ≠ 1 := by
  rw [compare, succeeds_check] at h
  rintro rfl
  obtain ⟨-, _, _, h⟩ := h
  cases h

theorem binSupported_of_succeeds {op : BinOp}
    (h : Succeeds (evalBin P op w a.value b.value) c) : BinSupported c op a b := by
  cases op with
  | add nuw nsw => exact of_succeeds_add h
  | sub nuw nsw | mul nuw nsw => exact of_succeeds_plain h
  | udiv exact | sdiv exact => exact of_succeeds_division h
  | urem | srem => exact ⟨(of_succeeds_division h).1, (of_succeeds_division h).2.2⟩
  | shl nuw nsw =>
    obtain ⟨hw, hnuw, hnsw, -⟩ := of_succeeds_shift (f := ⟨nuw, nsw, false⟩) h
    exact ⟨hw, hnuw, hnsw⟩
  | lshr exact =>
    obtain ⟨hw, -, -, hexact⟩ := of_succeeds_shift (f := ⟨false, false, exact⟩) h
    exact ⟨hw, hexact⟩
  | ashr exact =>
    obtain ⟨hw, -, -, hexact⟩ := of_succeeds_shift (f := ⟨false, false, exact⟩) h
    exact ⟨hw, hexact⟩
  | and | or | xor => trivial

/-- What the evaluator does not support raises an exception. -/
theorem supported_of_succeeds {i : Instr IntTerm w} (hi : Faithful i)
    (h : Succeeds (evalInstr P i) c) : Supported c σ i := by
  cases i with
  | bin op a b => exact binSupported_of_succeeds h
  | icmp p a b =>
    cases p with
    | eq | ne => trivial
    | sle => exact hi.elim
    | _ => exact of_succeeds_compare h
  | trunc pos lt a => exact hi
  | zext pos lt a => trivial
  | sext pos lt a => exact fun hv => absurd hv hi
  | select cond a b =>
    rw [evalInstr, select, bind_assoc, succeeds_check, Bool.not_eq_true'] at h
    exact h.1

/-- The value of an instruction that returns stands for the result. -/
theorem stands_of_evalInstr {i : Instr IntTerm w} (hi : Faithful i) (hσ : Holds σ c.assertions)
    {u : Value} {r : BitVec w} (hrun : evalInstr P i c = .ok u d)
    (hr : (i.map (IntTerm.num σ)).exec = some r) : Stands σ u ⟨w, r⟩ := by
  have hagrees : AgreesAt P c i σ :=
    (agreesAt_iff P c i σ).2 fun _ _ => supported_of_succeeds hi ⟨u, d, hrun⟩
  obtain ⟨t, d', ht, hnum⟩ := hagrees hσ r hr
  cases hrun.symm.trans ht
  exact ⟨t, rfl, hnum⟩

end

theorem runInstr_map (i : Instr IntTerm w) :
    runInstr P (i.map IntTerm.value) = evalInstr P i := by
  cases i <;> rfl

/-! ## The dictionary of a call -/

/-- The innermost dictionary. -/
def Scope.top (sc : Scope) : Dict String Obj := sc.locals.headD ∅

theorem readStack_eq_ok {key : String} {o : Obj} :
    readStack key c = .ok o d ↔ c.top.lookup key = some o ∧ d = c := by
  rw [readStack, Py.get_bind, Scope.top]
  cases c.locals with
  | nil =>
    refine iff_of_false ?_ ?_
    · intro h
      cases h
    · rintro ⟨h, -⟩
      cases h
  | cons frame frames =>
    dsimp only [List.headD_cons]
    cases frame.lookup key with
    | none =>
      refine iff_of_false ?_ ?_
      · intro h
        cases h
      · rintro ⟨h, -⟩
        cases h
    | some o' =>
      constructor
      · intro h
        cases h
        exact ⟨rfl, rfl⟩
      · rintro ⟨h, rfl⟩
        cases h
        rfl

theorem writeStack_eq_ok {key : String} {o : Obj} (h : writeStack key o c = .ok () d) :
    d = { c with locals := c.top.insert key o :: c.locals.tail } := by
  rw [writeStack, Py.get_bind] at h
  rw [Scope.top]
  cases hlocals : c.locals with
  | nil =>
    rw [hlocals] at h
    cases h
  | cons frame frames =>
    rw [hlocals] at h
    cases h
    rfl

/-- All objects of a dictionary are terms. -/
def AllTerms (frame : Dict String Obj) : Prop :=
  ∀ key o, frame.lookup key = some o → ∃ u, o = .expr u

theorem AllTerms.insert {frame : Dict String Obj} (h : AllTerms frame) (key : String) (u : Value) :
    AllTerms (frame.insert key (.expr u)) := by
  intro k o ho
  by_cases hk : k = key
  · subst hk
    rw [AList.lookup_insert] at ho
    cases ho
    exact ⟨u, rfl⟩
  · rw [AList.lookup_insert_ne hk] at ho
    exact h k o ho

/-- The registers, which are all among `names`, have the values that the terms of the dictionary
stand for. -/
def RegsMatch (names : List String) (σ : Env) (regs : Registers) (frame : Dict String Obj) : Prop :=
  ∀ x v, regs x = some v → x ∈ names ∧ ∃ u, frame.lookup (name x) = some (.expr u) ∧ Stands σ u v

/-- No two of the names are made equal. -/
def NamesDistinct (names : List String) : Prop :=
  ∀ x ∈ names, ∀ y ∈ names, name x = name y → x = y

section

variable {names : List String} {regs : Registers} {frame : Dict String Obj} {u : Value}
  {v : LlvmInt}

theorem RegsMatch.update (hinj : NamesDistinct names) (h : RegsMatch names σ regs frame)
    {x : String} (hx : x ∈ names) (hv : Stands σ u v) :
    RegsMatch names σ (Function.update regs x (some v)) (frame.insert (name x) (.expr u)) := by
  intro y v' hy
  by_cases hyx : y = x
  · subst hyx
    rw [Function.update_self] at hy
    cases hy
    exact ⟨hx, u, AList.lookup_insert _, hv⟩
  · rw [Function.update_of_ne hyx] at hy
    obtain ⟨hmem, u', hu', hstands⟩ := h y v' hy
    have hne : name y ≠ name x := fun h => hyx (hinj y hmem x hx h)
    exact ⟨hmem, u', (AList.lookup_insert_ne hne).trans hu', hstands⟩

/-- The value of a constant. -/
theorem stands_constantInt (σ : Env) (v : LlvmInt) : Stands σ (constantInt v.2.toNat v.1) v := by
  obtain ⟨w, x⟩ := v
  unfold constantInt
  dsimp only
  split
  · rename_i hw
    subst hw
    refine ⟨(.lit (x.toNat == 1) : Term .bool), rfl, ?_⟩
    show BitVec.ofBool ((Term.lit (s := .bool) (x.toNat == 1)).eval σ) = x
    rw [Term.eval_lit]
    revert x
    decide
  · rename_i hw
    obtain ⟨t, ht, hnum⟩ := exists_intTerm hw (.lit (BitVec.ofNat w x.toNat))
    refine ⟨t, ht.symm, ?_⟩
    rw [hnum, Term.eval_lit]
    exact (BitVec.ofNat_toNat ..).trans (BitVec.setWidth_eq x)

/-- An operand is read from the dictionary. -/
theorem run_get {val : Operand} {o : Obj} (hterms : AllTerms c.top)
    (h : (get val).run c = .ok o d) :
    d = c ∧ ∃ u, o = .expr u ∧ ∀ {names σ regs v}, RegsMatch names σ regs c.top →
      val.read regs = some v → Stands σ u v := by
  have hregister : ∀ x, readStack (name x) c = .ok o d → d = c ∧ ∃ u, o = .expr u ∧
      ∀ {names σ regs v}, RegsMatch names σ regs c.top → regs x = some v → Stands σ u v := by
    intro x hx
    obtain ⟨hlookup, rfl⟩ := readStack_eq_ok.1 hx
    obtain ⟨u, rfl⟩ := hterms _ _ hlookup
    refine ⟨rfl, u, rfl, fun hregs hv => ?_⟩
    obtain ⟨-, u', hu', hstands⟩ := hregs _ _ hv
    cases hu'.symm.trans hlookup
    exact hstands
  cases val with
  | instruction x => exact hregister x h
  | argument x => exact hregister x h
  | constant v' =>
    cases h
    refine ⟨rfl, _, rfl, fun _ hv => ?_⟩
    cases hv
    exact stands_constantInt _ _

theorem runOperand_eq_ok {val : Operand} (hterms : AllTerms c.top)
    (h : runOperand val c = .ok u d) :
    d = c ∧ ∀ {names σ regs v}, RegsMatch names σ regs c.top → val.read regs = some v →
      Stands σ u v := by
  obtain ⟨o, e, ho, hu⟩ := Py.bind_eq_ok.1 h
  obtain ⟨rfl, u', rfl, hstands⟩ := run_get hterms ho
  cases hu
  exact ⟨rfl, hstands⟩

theorem read_of_readAs {val : Operand} {x : BitVec w} (h : val.readAs regs w = some x) :
    val.read regs = some ⟨w, x⟩ := by
  obtain ⟨v, hv, hx⟩ := Option.bind_eq_some_iff.1 h
  obtain ⟨w', y⟩ := v
  dsimp only at hx
  split at hx
  · rename_i hw
    subst hw
    cases hx
    exact hv
  · cases hx

/-- An operand is computed first. -/
theorem operand_bind_eq_ok {α : Type} {val : Operand} {f : Value → Py α} {a : α}
    (hterms : AllTerms c.top) (h : (runOperand val >>= f) c = .ok a d) :
    ∃ u, f u c = .ok a d ∧ ∀ {names σ regs w} {x : BitVec w}, RegsMatch names σ regs c.top →
      val.readAs regs w = some x → ∃ t : IntTerm w, u = t.value ∧ t.num σ = x := by
  obtain ⟨u, e, hu, hf⟩ := Py.bind_eq_ok.1 h
  obtain ⟨rfl, hstands⟩ := runOperand_eq_ok hterms hu
  exact ⟨u, hf, fun hregs hx => hstands hregs (read_of_readAs hx)⟩

/-- The operands of an instruction are terms of their widths. -/
theorem exists_operands {i : Instr (fun _ => Operand) w} {i' : Instr (fun _ => Value) w}
    (hterms : AllTerms c.top) (h : i.mapM (fun {_} val => runOperand val) c = .ok i' d) :
    d = c ∧ ∀ {names σ regs j}, RegsMatch names σ regs c.top →
      (i.mapM fun {w} val => val.readAs regs w) = some j →
        ∃ k : Instr IntTerm w, i' = k.map IntTerm.value ∧ k.map (IntTerm.num σ) = j ∧
          (Faithful i → Faithful k) := by
  cases i with
  | bin op a b =>
    obtain ⟨a', h, ha⟩ := operand_bind_eq_ok hterms h
    obtain ⟨b', h, hb⟩ := operand_bind_eq_ok hterms h
    cases h
    refine ⟨rfl, fun hregs hj => ?_⟩
    obtain ⟨x, hx, hj⟩ := Option.bind_eq_some_iff.1 hj
    obtain ⟨y, hy, hj⟩ := Option.bind_eq_some_iff.1 hj
    obtain ⟨s, rfl, rfl⟩ := ha hregs hx
    obtain ⟨t, rfl, rfl⟩ := hb hregs hy
    cases hj
    exact ⟨.bin op s t, rfl, rfl, id⟩
  | icmp p a b =>
    obtain ⟨a', h, ha⟩ := operand_bind_eq_ok hterms h
    obtain ⟨b', h, hb⟩ := operand_bind_eq_ok hterms h
    cases h
    refine ⟨rfl, fun hregs hj => ?_⟩
    obtain ⟨x, hx, hj⟩ := Option.bind_eq_some_iff.1 hj
    obtain ⟨y, hy, hj⟩ := Option.bind_eq_some_iff.1 hj
    obtain ⟨s, rfl, rfl⟩ := ha hregs hx
    obtain ⟨t, rfl, rfl⟩ := hb hregs hy
    cases hj
    refine ⟨.icmp p s t, rfl, rfl, fun hi => ?_⟩
    cases p with
    | sle => exact hi
    | _ => trivial
  | trunc pos lt a =>
    obtain ⟨a', h, ha⟩ := operand_bind_eq_ok hterms h
    cases h
    refine ⟨rfl, fun hregs hj => ?_⟩
    obtain ⟨x, hx, hj⟩ := Option.bind_eq_some_iff.1 hj
    obtain ⟨s, rfl, rfl⟩ := ha hregs hx
    cases hj
    exact ⟨.trunc pos lt s, rfl, rfl, id⟩
  | zext pos lt a =>
    obtain ⟨a', h, ha⟩ := operand_bind_eq_ok hterms h
    cases h
    refine ⟨rfl, fun hregs hj => ?_⟩
    obtain ⟨x, hx, hj⟩ := Option.bind_eq_some_iff.1 hj
    obtain ⟨s, rfl, rfl⟩ := ha hregs hx
    cases hj
    exact ⟨.zext pos lt s, rfl, rfl, id⟩
  | sext pos lt a =>
    obtain ⟨a', h, ha⟩ := operand_bind_eq_ok hterms h
    cases h
    refine ⟨rfl, fun hregs hj => ?_⟩
    obtain ⟨x, hx, hj⟩ := Option.bind_eq_some_iff.1 hj
    obtain ⟨s, rfl, rfl⟩ := ha hregs hx
    cases hj
    exact ⟨.sext pos lt s, rfl, rfl, id⟩
  | select cond a b =>
    obtain ⟨c', h, hc⟩ := operand_bind_eq_ok hterms h
    obtain ⟨a', h, ha⟩ := operand_bind_eq_ok hterms h
    obtain ⟨b', h, hb⟩ := operand_bind_eq_ok hterms h
    cases h
    refine ⟨rfl, fun hregs hj => ?_⟩
    obtain ⟨z, hz, hj⟩ := Option.bind_eq_some_iff.1 hj
    obtain ⟨x, hx, hj⟩ := Option.bind_eq_some_iff.1 hj
    obtain ⟨y, hy, hj⟩ := Option.bind_eq_some_iff.1 hj
    obtain ⟨r, rfl, rfl⟩ := hc hregs hz
    obtain ⟨s, rfl, rfl⟩ := ha hregs hx
    obtain ⟨t, rfl, rfl⟩ := hb hregs hy
    cases hj
    exact ⟨.select r s t, rfl, rfl, id⟩

end

/-! ## What stays of a scope -/

section

variable {Γ Δ : List (Term .bool)} {s : Term .bool} {frame d₁ d₂ e : Dict String Obj}

/-- The terms of a dictionary keep their values wherever the assertions hold, and no name is added. -/
structure FrameKept (Γ : List (Term .bool)) (d e : Dict String Obj) : Prop where
  terms : ∀ key u, d.lookup key = some (.expr u) →
    ∃ u', e.lookup key = some (.expr u') ∧ ∀ σ, Holds σ Γ → u'.val σ = u.val σ
  absent : ∀ key, d.lookup key = none → e.lookup key = none

/-- The functions among the globals, and the dictionaries around the innermost one. -/
structure Kept (Γ : List (Term .bool)) (sc sc' : Scope) : Prop where
  globals : ∀ key g, sc.globals.lookup key = some (.func g) →
    sc'.globals.lookup key = some (.func g)
  locals : List.Forall₂ (FrameKept Γ) sc.locals.tail sc'.locals.tail

theorem FrameKept.refl (d : Dict String Obj) : FrameKept Γ d d :=
  ⟨fun _ u h => ⟨u, h, fun _ _ => rfl⟩, fun _ h => h⟩

theorem FrameKept.trans (h : FrameKept Γ frame d₁) (h' : FrameKept Γ d₁ e) :
    FrameKept Γ frame e where
  terms key u hu := by
    obtain ⟨u₁, hu₁, hval⟩ := h.terms key u hu
    obtain ⟨u₂, hu₂, hval'⟩ := h'.terms key u₁ hu₁
    exact ⟨u₂, hu₂, fun σ hσ => (hval' σ hσ).trans (hval σ hσ)⟩
  absent key hkey := h'.absent key (h.absent key hkey)

theorem FrameKept.mono (hΔ : ∀ σ, Holds σ Δ → Holds σ Γ) (h : FrameKept Γ frame e) :
    FrameKept Δ frame e where
  terms key u hu := by
    obtain ⟨u', hu', hval⟩ := h.terms key u hu
    exact ⟨u', hu', fun σ hσ => hval σ (hΔ σ hσ)⟩
  absent := h.absent

theorem Kept.refl (sc : Scope) : Kept Γ sc sc :=
  ⟨fun _ _ h => h, List.forall₂_same.2 fun d _ => .refl d⟩

theorem Kept.trans {sc sc₁ sc₂ : Scope} (h : Kept Γ sc sc₁) (h' : Kept Γ sc₁ sc₂) :
    Kept Γ sc sc₂ := by
  have htrans : ∀ d e f, FrameKept Γ d e → FrameKept Γ e f → FrameKept Γ d f :=
    fun _ _ _ => FrameKept.trans
  exact ⟨fun key g hg => h'.globals key g (h.globals key g hg),
    forall₂_trans htrans h.locals h'.locals⟩

theorem Kept.mono (hΔ : ∀ σ, Holds σ Δ → Holds σ Γ) {sc sc' : Scope} (h : Kept Γ sc sc') :
    Kept Δ sc sc' :=
  ⟨h.globals, h.locals.imp fun _ _ => FrameKept.mono hΔ⟩

theorem AllTerms.kept (h : AllTerms frame) (hkept : FrameKept Γ frame e) : AllTerms e := by
  intro key o ho
  cases hkey : frame.lookup key with
  | none => cases ho.symm.trans (hkept.absent key hkey)
  | some o' =>
    obtain ⟨u, rfl⟩ := h key o' hkey
    obtain ⟨u', hu', -⟩ := hkept.terms key u hkey
    exact ⟨u', Option.some.inj (ho.symm.trans hu')⟩

theorem RegsMatch.kept {names : List String} {regs : Registers}
    (h : RegsMatch names σ regs frame) (hkept : FrameKept Γ frame e) (hσ : Holds σ Γ) :
    RegsMatch names σ regs e := by
  intro x v hx
  obtain ⟨hmem, u, hu, hstands⟩ := h x v hx
  obtain ⟨u', hu', hval⟩ := hkept.terms _ u hu
  exact ⟨hmem, u', hu', hstands.congr (hval σ hσ)⟩

/-! ### Merging -/

/-- The conditional of two terms is a term that has the value of the selected one. -/
theorem If_terms_eq_ok {a b : Value} {m : Obj} (h : If P s (.expr a) (.expr b) = .ok m) :
    ∃ u, m = .expr u ∧ ∀ σ, u.val σ = if s.eval σ = true then a.val σ else b.val σ := by
  obtain ⟨u, hu, hm⟩ := bind_eq_ok_iff.1 h
  cases hm
  refine ⟨u, rfl, ?_⟩
  by_cases hsort : a.sort = b.sort
  · obtain ⟨sa, ta⟩ := a
    obtain ⟨sb, tb⟩ := b
    obtain rfl : sa = sb := hsort
    obtain ⟨t, ht, heval⟩ := exists_ifValue P s ta tb
    cases hu.symm.trans ht
    intro σ
    rw [Value.val, heval]
    split
    · rfl
    · rfl
  · -- only a decided condition selects one of two sorts
    rw [ifValue] at hu
    split at hu
    · rename_i hlit
      cases hu
      intro σ
      rw [eval_of_simplify_isLit hlit σ, if_pos rfl]
    split at hu
    · rename_i hlit
      cases hu
      intro σ
      rw [eval_of_simplify_isLit hlit σ, if_neg Bool.false_ne_true]
    split at hu
    · cases hu
    · obtain ⟨same, hsame, hrest⟩ := bind_eq_ok_iff.1 hu
      rw [definitelyEqual, dif_neg hsort] at hsame
      split at hsame
      · cases hsame
        cases hrest
      · cases hsame

/-- A function of the program is not merged with itself. -/
theorem If_func {g : String} (his : P.is (.func g) (.func g) = true) :
    If P s (.func g) (.func g) = .ok (.func g) := by
  have hsame : definitelyEqual P (.func g) (.func g) = .ok true := congrArg Except.ok his
  rw [If_eq_of_not_terms (not_terms_of_function rfl), hsame]
  split
  · rfl
  split
  · rfl
  · rfl

theorem FrameKept.merge (h₁ : FrameKept (s :: Γ) frame d₁) (h₂ : FrameKept (.not s :: Γ) frame d₂)
    (he : mergeDict (If P s) d₁ d₂ = .ok e) : FrameKept Γ frame e where
  terms key u hu := by
    obtain ⟨u₁, hu₁, hval₁⟩ := h₁.terms key u hu
    obtain ⟨u₂, hu₂, hval₂⟩ := h₂.terms key u hu
    have hmerged := mergeDict_lookup he key
    rw [hu₁, hu₂] at hmerged
    obtain ⟨m, hm, hlookup⟩ := hmerged
    obtain ⟨u', rfl, hval⟩ := If_terms_eq_ok hm
    refine ⟨u', hlookup, fun σ hσ => ?_⟩
    rw [hval]
    split
    · rename_i hs
      exact hval₁ σ (List.forall_mem_cons.2 ⟨hs, hσ⟩)
    · rename_i hs
      refine hval₂ σ (List.forall_mem_cons.2 ⟨?_, hσ⟩)
      rw [Term.eval_not, Bool.eq_false_iff.2 hs]
      rfl
  absent key hkey := by
    -- a key of neither dictionary is not merged
    have hkeys : key ∉ d₁.keys ++ d₂.keys := by
      rw [List.mem_append, not_or, ← AList.mem_keys, ← AList.mem_keys, ← AList.lookup_eq_none,
        ← AList.lookup_eq_none]
      exact ⟨h₁.absent key hkey, h₂.absent key hkey⟩
    rw [mergeDict_eq] at he
    exact (mergeKeys_spec _ he key).2 hkeys

theorem forall₂_merge {fs fs₁ fs₂ es : List (Dict String Obj)}
    (h₁ : List.Forall₂ (FrameKept (s :: Γ)) fs fs₁)
    (h₂ : List.Forall₂ (FrameKept (.not s :: Γ)) fs fs₂)
    (he : mergeList (mergeDict (If P s)) fs₁ fs₂ = .ok es) : List.Forall₂ (FrameKept Γ) fs es := by
  induction h₁ generalizing fs₂ es with
  | nil =>
    cases h₂
    cases he
    exact .nil
  | cons h _ ih =>
    cases h₂ with
    | cons h' h₂ =>
      obtain ⟨z, zs, hz, hzs, rfl⟩ := mergeList_cons.1 he
      exact .cons (h.merge h' hz) (ih h₂ hzs)

theorem tail_of_mergeList {fs₁ fs₂ es : List (Dict String Obj)}
    (he : mergeList (mergeDict (If P s)) fs₁ fs₂ = .ok es) :
    mergeList (mergeDict (If P s)) fs₁.tail fs₂.tail = .ok es.tail := by
  have hlen := length_of_mergeList he
  cases fs₁ with
  | nil =>
    cases fs₂ with
    | nil =>
      cases he
      rfl
    | cons => cases hlen
  | cons =>
    cases fs₂ with
    | nil => cases hlen
    | cons =>
      obtain ⟨z, zs, -, hzs, rfl⟩ := mergeList_cons.1 he
      exact hzs

/-- What both bodies of a branch keep, the merge of what they leave keeps. -/
theorem Kept.merge (his : ∀ g, P.is (.func g) (.func g) = true) {sc sc₁ sc₂ : Scope}
    (h₁ : Kept (s :: Γ) sc sc₁) (h₂ : Kept (.not s :: Γ) sc sc₂)
    (h : mergeCtx P s sc₁ sc₂ c = .ok () d) : Kept Γ sc d.toScope := by
  obtain ⟨globals, locals, references, hg, hl, -, rfl⟩ := mergeCtx_eq_ok.1 h
  refine ⟨fun key g hkey => ?_, forall₂_merge h₁.locals h₂.locals (tail_of_mergeList hl)⟩
  have hmerged := mergeDict_lookup hg key
  rw [h₁.globals key g hkey, h₂.globals key g hkey] at hmerged
  obtain ⟨m, hm, hlookup⟩ := hmerged
  cases hm.symm.trans (If_func (his g))
  exact hlookup

end

/-! ## Branches -/

namespace Quiet

/-- The body is evaluated between a `push` and its `pop`, which leaves nothing of the condition. -/
theorem runBody {body : Py (Option Obj)} (h : Quiet body) (t : Term .bool) :
    Quiet (runBody P t body) := by
  intro c
  rw [after_runBody]
  exact (extends_pop (h (c.push t))).1

theorem mergeCtx (t : Term .bool) (sc sc' : Scope) : Quiet (mergeCtx P t sc sc') :=
  (ofExcept _).bind fun _ => (modifyScope _).bind fun _ => (ofExcept _).bind fun _ =>
    (modifyScope _).bind fun _ => (ofExcept _).bind fun _ => modifyScope _

theorem finishBranch (out : Outcome) (sc : Scope) : Quiet (finishBranch out sc) := by
  refine (modifyScope _).bind fun _ => ?_
  cases out with
  | raised e => exact throw _
  | _ => exact pure _

theorem mergeBranch (cond scond : Term .bool) (t f : Outcome × Scope) :
    Quiet (mergeBranch P cond scond t f) := by
  refine (mergeCtx _ _ _).bind fun _ => ?_
  split
  · exact throw _
  · exact throw _
  · exact pure _
  · exact (ofExcept _).bind fun _ => pure _
  · exact throw _
  · exact throw _

end Quiet

/-- The bodies of a branch but for those that were left. -/
def reached : Option (Outcome × Scope) → Option (Outcome × Scope)
  | some (.panic, _) => none
  | r => r

/-- The end of a branch. -/
def joinBranches (P : Lib) (cond scond : Term .bool) (t f : Option (Outcome × Scope)) :
    Py (Option Obj) :=
  match reached t, reached f with
  | none, none => throw .unreachable
  | some t, none => finishBranch t.1 t.2
  | none, some f => finishBranch f.1 f.2
  | some t, some f => mergeBranch P cond scond t f

/-- The evaluation of a body that can be selected. -/
def runBodyIf (P : Lib) (p : Bool) (t : Term .bool) (body : Py (Option Obj)) :
    Py (Option (Outcome × Scope)) :=
  if p then some <$> runBody P t body else pure none

theorem branch_apply {t : Term .bool} {x y : Py (Option Obj)} (hp : ¬isPoison t) :
    branch P ⟨.bool, t⟩ (.int 1) x y c =
      (runBodyIf P (canBeTrue P c (P.simplify t)) (P.simplify t) x >>= fun tr =>
        runBodyIf P (canBeFalse P c (P.simplify t)) (.not (P.simplify t)) y >>= fun fa =>
          joinBranches P t (P.simplify t) tr fa) c := by
  have hcheck : (!isPoison t) = true := by simpa using hp
  have htrue : (!(P.simplify t).isLit false && !P.implies c.assertions (P.simplify t).not) =
    canBeTrue P c (P.simplify t) := rfl
  have hfalse : (!canBeTrue P c (P.simplify t) || !(P.simplify t).isLit true &&
    !P.implies c.assertions (P.simplify t)) = canBeFalse P c (P.simplify t) := rfl
  rw [branch, Py.check_bind, if_pos hcheck]
  simp only [integerSize, pure_bind, boolTerm, Py.ofExcept_ok_bind, Py.check_bind,
    Py.pathConditionImplies_bind, beq_self_eq_true, if_true]
  rw [htrue, hfalse]
  cases canBeTrue P c (P.simplify t) with
  | false => cases canBeFalse P c (P.simplify t) <;> rfl
  | true => cases canBeFalse P c (P.simplify t) <;> rfl

namespace Quiet

theorem joinBranches (cond scond : Term .bool) (t f : Option (Outcome × Scope)) :
    Quiet (joinBranches P cond scond t f) := by
  unfold Irpy.joinBranches
  split
  · exact throw _
  · exact finishBranch _ _
  · exact finishBranch _ _
  · exact mergeBranch _ _ _ _

theorem branch (cond : Value) (condType : Ty) {x y : Py (Option Obj)} (hx : Quiet x)
    (hy : Quiet y) : Quiet (branch P cond condType x y) := by
  have hbody : ∀ {body : Py (Option Obj)} (hb : Quiet body) (t : Term .bool),
      Quiet (some <$> Irpy.runBody P t body) := fun hb t => (runBody hb t).bind fun _ => pure _
  refine (check _).bind fun _ => (integerSize _).bind fun _ => (check _).bind fun _ =>
    (ofExcept _).bind fun t => (pathConditionImplies _).bind fun _ =>
    (pathConditionImplies _).bind fun _ => ?_
  refine ite ?_ ?_
  · exact (hbody hx _).bind fun tr => ite ((hbody hy _).bind fun fa => joinBranches _ _ tr fa)
      ((pure none).bind fun fa => joinBranches _ _ tr fa)
  · exact (pure none).bind fun tr => ite ((hbody hy _).bind fun fa => joinBranches _ _ tr fa)
      ((pure none).bind fun fa => joinBranches _ _ tr fa)

theorem switch (value : Value) (valueType : Ty) {default : Py (Option Obj)}
    (hdefault : Quiet default) (cases : Cases) (hcases : ∀ x ∈ cases, Quiet x.2.2) :
    Quiet (switch P value valueType default cases) := by
  induction cases with
  | nil => exact hdefault
  | cons x cases ih =>
    refine (check _).bind fun _ => (ofExcept _).bind fun _ => branch _ _ ?_ (ih ?_)
    · exact hcases x (List.mem_cons_self ..)
    · exact fun y hy => hcases y (List.mem_cons_of_mem _ hy)

end Quiet

/-- The object is a term that stands for the integer. -/
def Denotes (σ : Env) (o : Obj) (v : LlvmInt) : Prop := ∃ u, o = .expr u ∧ Stands σ u v

/-- The results that there can be under an assignment. -/
abbrev Results := Env → Option LlvmInt → Prop

/-- The value stands for every result, and what is around the innermost dictionary is kept. -/
structure Returned (Γ : List (Term .bool)) (sc : Scope) (R : Results) (o : Option Obj)
    (sc' : Scope) : Prop where
  kept : Kept Γ sc sc'
  terms : ∀ a, o = some a → ∃ u, a = .expr u
  denotes : ∀ σ r, Holds σ Γ → R σ r → Option.Rel (Denotes σ) o r

/-- From the scope on, an evaluation that returns stands for every result, and one that ends in an
unreachable block has none. -/
structure BodySound (sc : Scope) (x : Py (Option Obj)) (R : Results) : Prop where
  returned : ∀ c o d, c.toScope = sc → x c = .ok o d → Returned c.assertions sc R o d.toScope
  unreachable : ∀ c d, c.toScope = sc → x c = .error .unreachable d →
    ∀ σ r, Holds σ c.assertions → ¬R σ r

section

variable {Γ : List (Term .bool)} {s : Term .bool} {sc sc' : Scope} {R S : Results}
  {x y : Py (Option Obj)} {o : Option Obj}

theorem BodySound.mono (h : BodySound sc x R) (hSR : ∀ σ r, S σ r → R σ r) : BodySound sc x S where
  returned c o d hc hrun := by
    obtain ⟨hkept, hterms, hdenotes⟩ := h.returned c o d hc hrun
    exact ⟨hkept, hterms, fun σ r hσ hr => hdenotes σ r hσ (hSR σ r hr)⟩
  unreachable c d hc hrun σ r hσ hr := h.unreachable c d hc hrun σ r hσ (hSR σ r hr)

/-- What the evaluation of a body led to, if the body was evaluated. -/
inductive Ended (Γ : List (Term .bool)) (s : Term .bool) (sc : Scope) (R : Results) :
    Option (Outcome × Scope) → Prop
  | unreached {t : Option (Outcome × Scope)} (ht : reached t = none)
    (h : ∀ σ, Holds σ Γ → s.eval σ = false) : Ended Γ s sc R t
  | returned {o : Option Obj} {sc' : Scope} (h : Returned (s :: Γ) sc R o sc') :
    Ended Γ s sc R (some (.returned o, sc'))
  | raised {e : Exc} {sc' : Scope} (he : e ≠ .unreachable) :
    Ended Γ s sc R (some (.raised e, sc'))

theorem Quiet.assertions {α : Type} {x : Py α} (h : Quiet x) (c : Ctx) :
    (x.after c).assertions = c.assertions := by
  rw [Ctx.assertions, Ctx.assertions, (h c).solver]
  rfl

theorem assertions_push (c : Ctx) (t : Term .bool) : (c.push t).assertions = t :: c.assertions := by
  rfl

/-- A body that raises an exception. -/
theorem runBody_eq_error {t : Term .bool} {body : Py (Option Obj)} {e : Exc}
    (h : body (c.push t) = .error e d) :
    runBody P t body c =
      if e = .unreachable then
        if P.implies d.assertions (.lit false) = true then .ok (.panic, d.toScope) d.pop.2
        else .error .assertion d.pop.2
      else .ok (.raised e, d.toScope) d.pop.2 := by
  have hpush : (modify fun c : Ctx => c.push t : Py Unit) c = .ok () (c.push t) := rfl
  have htry : (tryCatch (do let v ← body; pure (Outcome.returned v)) fun e =>
      if e = .unreachable then do
        if ← pathConditionImplies P (.lit false) then pure .panic else pure .failed
      else pure (.raised e) : Py Outcome) (c.push t) = .ok
        (if e = .unreachable then
          if P.implies d.assertions (.lit false) = true then .panic else .failed
        else .raised e) d := by
    show EStateM.tryCatch _ _ _ = _
    unfold EStateM.tryCatch
    rw [Py.bind_apply, h]
    dsimp only
    split
    · show (if P.implies d.assertions (.lit false) = true then pure Outcome.panic
        else pure Outcome.failed : Py Outcome) d = _
      split
      · rfl
      · rfl
    · rfl
  rw [runBody, Py.bind_apply, hpush]
  dsimp only
  rw [Py.bind_apply, htry, ← pop_fst d]
  by_cases he : e = .unreachable
  · by_cases himp : P.implies d.assertions (.lit false) = true
    · simp only [if_pos he, if_pos himp]
      rfl
    · simp only [if_pos he, if_neg himp]
      rfl
  · simp only [if_neg he]
    rfl

/-- A body that panics is unreachable under the assertions, and another one returns or raises
another exception. -/
theorem runBody_cases (hx : BodySound sc x R) (hq : Quiet x) (hc : c.toScope = sc) (s : Term .bool) :
    (∃ t d, runBody P s x c = .ok t d ∧ Ended c.assertions s sc R (some t) ∧ d.toScope = sc ∧
      d.assertions = c.assertions) ∨ ∃ d, runBody P s x c = .error .assertion d := by
  have hafter := hq (c.push s)
  cases hbody : x (c.push s) with
  | ok o d =>
    rw [Py.after, hbody] at hafter
    obtain ⟨hext, hscope⟩ := extends_pop hafter
    exact .inl ⟨_, _, runBody_eq_ok hbody, .returned (hx.returned (c.push s) o d hc hbody),
      hscope.trans hc, congrArg List.flatten hext.solver⟩
  | error e d =>
    rw [Py.after, hbody] at hafter
    obtain ⟨hext, hscope⟩ := extends_pop hafter
    rw [runBody_eq_error hbody]
    split
    · split
      · rename_i himp
        have hd : d.assertions = s :: c.assertions := congrArg List.flatten hafter.solver
        refine .inl ⟨_, _, rfl, .unreached rfl fun σ hσ => ?_, hscope.trans hc,
          congrArg List.flatten hext.solver⟩
        rw [hd] at himp
        by_contra hs
        have hfalse := P.implies_iff.1 himp σ
          (List.forall_mem_cons.2 ⟨Bool.not_eq_false _ ▸ hs, hσ⟩)
        rw [Term.eval_lit] at hfalse
        cases hfalse
      · exact .inr ⟨_, rfl⟩
    · rename_i he
      exact .inl ⟨_, _, rfl, .raised he, hscope.trans hc, congrArg List.flatten hext.solver⟩

/-- What a branch does with the results of its bodies. -/
def selected (s : Term .bool) (R S : Results) : Results :=
  fun σ r => if s.eval σ = true then R σ r else S σ r

theorem Returned.left (h : Returned (s :: Γ) sc R o sc')
    (hs : ∀ σ, Holds σ Γ → (Term.not s).eval σ = false) :
    Returned Γ sc (selected s R S) o sc' := by
  have htrue : ∀ σ, Holds σ Γ → s.eval σ = true := by
    intro σ hσ
    have hnot := hs σ hσ
    rw [Term.eval_not] at hnot
    simpa using hnot
  refine ⟨h.kept.mono fun σ hσ => List.forall_mem_cons.2 ⟨htrue σ hσ, hσ⟩, h.terms, ?_⟩
  intro σ r hσ hr
  rw [selected, if_pos (htrue σ hσ)] at hr
  exact h.denotes σ r (List.forall_mem_cons.2 ⟨htrue σ hσ, hσ⟩) hr

theorem Returned.right (h : Returned (.not s :: Γ) sc S o sc')
    (hs : ∀ σ, Holds σ Γ → s.eval σ = false) : Returned Γ sc (selected s R S) o sc' := by
  have hholds : ∀ σ, Holds σ Γ → Holds σ (.not s :: Γ) := by
    intro σ hσ
    refine List.forall_mem_cons.2 ⟨?_, hσ⟩
    rw [Term.eval_not, hs σ hσ]
    rfl
  refine ⟨h.kept.mono hholds, h.terms, fun σ r hσ hr => ?_⟩
  rw [selected, if_neg (by rw [hs σ hσ]; exact Bool.false_ne_true)] at hr
  exact h.denotes σ r (hholds σ hσ) hr

/-- The merge of two values is one for each side. -/
theorem mergeValue_eq_ok {cond : Term .bool} {o₁ o₂ : Option Obj}
    (h₁ : ∀ a, o₁ = some a → ∃ u, a = .expr u) (h₂ : ∀ a, o₂ = some a → ∃ u, a = .expr u)
    (h : mergeValue (If P cond) o₁ o₂ = .ok o) :
    (∀ a, o = some a → ∃ u, a = .expr u) ∧ ∀ σ r,
      Option.Rel (Denotes σ) (if cond.eval σ = true then o₁ else o₂) r →
        Option.Rel (Denotes σ) o r := by
  cases o₁ with
  | none =>
    cases o₂ with
    | some b => cases h
    | none =>
      cases h
      refine ⟨nofun, fun σ r hr => ?_⟩
      rwa [ite_self] at hr
  | some a =>
    cases o₂ with
    | none => cases h
    | some b =>
      obtain ⟨u₁, rfl⟩ := h₁ a rfl
      obtain ⟨u₂, rfl⟩ := h₂ b rfl
      obtain ⟨m, hm, hout⟩ := bind_eq_ok_iff.1 h
      cases hout
      obtain ⟨u, rfl, hval⟩ := If_terms_eq_ok hm
      refine ⟨fun a ha => ⟨u, (Option.some.inj ha).symm⟩, fun σ r hr => ?_⟩
      have hu := hval σ
      split at hr
      · rename_i hc
        rw [if_pos hc] at hu
        obtain ⟨⟨u', hu', hstands⟩⟩ := hr
        cases hu'
        exact .some ⟨u, rfl, hstands.congr hu⟩
      · rename_i hc
        rw [if_neg hc] at hu
        obtain ⟨⟨u', hu', hstands⟩⟩ := hr
        cases hu'
        exact .some ⟨u, rfl, hstands.congr hu⟩

theorem Returned.merge (his : ∀ g, P.is (.func g) (.func g) = true) {cond : Term .bool}
    (hcond : ∀ σ, cond.eval σ = s.eval σ) {o₁ o₂ : Option Obj} {sc₁ sc₂ : Scope}
    (h₁ : Returned (s :: Γ) sc R o₁ sc₁) (h₂ : Returned (.not s :: Γ) sc S o₂ sc₂)
    (hctx : mergeCtx P s sc₁ sc₂ c = .ok () d)
    (hvalue : mergeValue (If P cond) o₁ o₂ = .ok o) :
    Returned Γ sc (selected s R S) o d.toScope := by
  obtain ⟨hterms, hdenotes⟩ := mergeValue_eq_ok h₁.terms h₂.terms hvalue
  refine ⟨h₁.kept.merge his h₂.kept hctx, hterms, fun σ r hσ hr => hdenotes σ r ?_⟩
  rw [hcond]
  rw [selected] at hr
  split
  · rename_i hs
    rw [if_pos hs] at hr
    exact h₁.denotes σ r (List.forall_mem_cons.2 ⟨hs, hσ⟩) hr
  · rename_i hs
    rw [if_neg hs] at hr
    refine h₂.denotes σ r (List.forall_mem_cons.2 ⟨?_, hσ⟩) hr
    rw [Term.eval_not, Bool.eq_false_iff.2 hs]
    rfl

/-- A branch that returns. -/
theorem returned_joinBranches (his : ∀ g, P.is (.func g) (.func g) = true) {cond : Term .bool}
    (hcond : ∀ σ, cond.eval σ = s.eval σ) {t f : Option (Outcome × Scope)}
    (ht : Ended Γ s sc R t) (hf : Ended Γ (.not s) sc S f)
    (h : joinBranches P cond s t f c = .ok o d) :
    Returned Γ sc (selected s R S) o d.toScope := by
  rw [joinBranches] at h
  cases ht with
  | unreached ht hfalse =>
    rw [ht] at h
    cases hf with
    | unreached hf _ =>
      rw [hf] at h
      cases h
    | returned hret =>
      cases h
      exact hret.right hfalse
    | raised he => cases h
  | returned hret =>
    cases hf with
    | unreached hf hfalse =>
      rw [hf] at h
      cases h
      exact hret.left hfalse
    | returned hret' =>
      change mergeBranch P cond s _ _ c = _ at h
      rw [mergeBranch_eq] at h
      obtain ⟨_, d', hctx, hval⟩ := Py.bind_eq_ok.1 h
      obtain ⟨hvalue, rfl⟩ := ofExcept_eq_ok.1 hval
      exact hret.merge his hcond hret' hctx hvalue
    | raised he =>
      obtain ⟨_, _, -, h⟩ := Py.bind_eq_ok.1 h
      cases h
  | raised he =>
    cases hf with
    | unreached hf _ =>
      rw [hf] at h
      cases h
    | returned hret =>
      obtain ⟨_, _, -, h⟩ := Py.bind_eq_ok.1 h
      cases h
    | raised he' =>
      obtain ⟨_, _, -, h⟩ := Py.bind_eq_ok.1 h
      cases h

theorem Lands.mergeBranch {cond : Term .bool} {t f : Outcome × Scope}
    (ht : ∀ e, t.1 = .raised e → e ≠ .unreachable) (hf : ∀ e, f.1 = .raised e → e ≠ .unreachable) :
    Lands (mergeBranch P cond s t f) := by
  refine (mergeCtx _ _ _).bind fun _ => ?_
  split
  · rename_i he
    exact throw (ht _ he)
  · rename_i he _
    exact throw (hf _ he)
  · exact pure _
  · exact (ofExcept (.If _ _ _)).bind fun _ => pure _
  · exact throw (by decide)
  · exact throw (by decide)

theorem ne_unreachable_of_returned (o : Option Obj) (e : Exc) (h : Outcome.returned o = .raised e) :
    e ≠ .unreachable := by
  cases h

theorem ne_unreachable_of_raised {e : Exc} (he : e ≠ .unreachable) (e' : Exc)
    (h : Outcome.raised e = .raised e') : e' ≠ .unreachable := by
  cases h
  exact he

/-- A branch neither of whose bodies is reached. -/
theorem not_holds_of_joinBranches {cond : Term .bool} {t f : Option (Outcome × Scope)}
    (ht : Ended Γ s sc R t) (hf : Ended Γ (.not s) sc S f)
    (h : joinBranches P cond s t f c = .error .unreachable d) (σ : Env) : ¬Holds σ Γ := by
  rw [joinBranches] at h
  cases ht with
  | unreached ht hfalse =>
    rw [ht] at h
    cases hf with
    | unreached hf hfalse' =>
      intro hσ
      have hnot := hfalse' σ hσ
      rw [Term.eval_not, hfalse σ hσ] at hnot
      cases hnot
    | returned hret => cases h
    | raised he =>
      cases h
      exact absurd rfl he
  | returned hret =>
    cases hf with
    | unreached hf _ =>
      rw [hf] at h
      cases h
    | returned hret' =>
      exact absurd h (Lands.mergeBranch (ne_unreachable_of_returned _)
        (ne_unreachable_of_returned _) c d)
    | raised he =>
      exact absurd h (Lands.mergeBranch (ne_unreachable_of_returned _)
        (ne_unreachable_of_raised he) c d)
  | raised he =>
    cases hf with
    | unreached hf _ =>
      rw [hf] at h
      cases h
      exact absurd rfl he
    | returned hret =>
      exact absurd h (Lands.mergeBranch (ne_unreachable_of_raised he)
        (ne_unreachable_of_returned _) c d)
    | raised he' =>
      exact absurd h (Lands.mergeBranch (ne_unreachable_of_raised he)
        (ne_unreachable_of_raised he') c d)

/-- A body that is evaluated if it can be selected. -/
theorem body_cases (hx : BodySound sc x R) (hq : Quiet x) (hc : c.toScope = sc) {s : Term .bool}
    {p : Bool} (hp : p = false → ∀ σ, Holds σ c.assertions → s.eval σ = false) :
    (∃ t d, runBodyIf P p s x c = .ok t d ∧ Ended c.assertions s sc R t ∧ d.toScope = sc ∧
      d.assertions = c.assertions) ∨ ∃ d, runBodyIf P p s x c = .error .assertion d := by
  cases p with
  | false => exact .inl ⟨none, c, rfl, .unreached rfl (hp rfl), hc, rfl⟩
  | true =>
    rw [runBodyIf, if_pos rfl, ← bind_pure_comp, Py.bind_apply]
    rcases runBody_cases (P := P) hx hq hc s with ⟨t, d, hrun, hend, hscope, hassert⟩ | ⟨d, hrun⟩
    · rw [hrun]
      exact .inl ⟨some t, d, rfl, hend, hscope, hassert⟩
    · rw [hrun]
      exact .inr ⟨d, rfl⟩

/-- A branch fails, or ends as its bodies did. -/
theorem branch_cases (hx : BodySound sc x R) (hy : BodySound sc y S) (qx : Quiet x) (qy : Quiet y)
    (u : Value) (hc : c.toScope = sc) :
    (∃ t tr fa e, u = ⟨.bool, t⟩ ∧ Ended c.assertions (P.simplify t) sc R tr ∧
      Ended c.assertions (.not (P.simplify t)) sc S fa ∧
      branch P u (.int 1) x y c = joinBranches P t (P.simplify t) tr fa e) ∨
    ∃ e d, e ≠ .unreachable ∧ branch P u (.int 1) x y c = .error e d := by
  by_cases hp : isPoison u.term = true
  · refine .inr ⟨.assertion, c, by decide, ?_⟩
    rw [branch, Py.check_bind, hp]
    rfl
  obtain ⟨sort, t⟩ := u
  cases sort with
  | bv w =>
    refine .inr ⟨.z3, c, by decide, ?_⟩
    rw [branch, Py.check_bind, Bool.eq_false_iff.2 hp]
    rfl
  | args =>
    refine .inr ⟨.z3, c, by decide, ?_⟩
    rw [branch, Py.check_bind, Bool.eq_false_iff.2 hp]
    rfl
  | bool =>
    rw [branch_apply hp, Py.bind_apply]
    have hfalse : canBeTrue P c (P.simplify t) = false → ∀ σ, Holds σ c.assertions →
      (P.simplify t).eval σ = false := fun h σ => eval_eq_false_of_not_canBeTrue h
    have htrue : canBeFalse P c (P.simplify t) = false → ∀ σ, Holds σ c.assertions →
        (Term.not (P.simplify t)).eval σ = false := by
      intro h σ hσ
      rw [Term.eval_not, eval_eq_true_of_not_canBeFalse h hσ]
      rfl
    rcases body_cases (P := P) hx qx hc hfalse with ⟨tr, d, hrun, htr, hd, hassert⟩ | ⟨d, hrun⟩
    · rw [hrun]
      dsimp only
      rw [Py.bind_apply]
      rw [← hassert] at htrue
      rcases body_cases (P := P) hy qy hd htrue with ⟨fa, e, hrun', hfa, -⟩ | ⟨e, hrun'⟩
      · rw [hrun']
        rw [hassert] at hfa
        exact .inl ⟨t, tr, fa, e, rfl, htr, hfa, rfl⟩
      · rw [hrun']
        exact .inr ⟨.assertion, e, by decide, rfl⟩
    · rw [hrun]
      exact .inr ⟨.assertion, d, by decide, rfl⟩

/-- A branch is sound if its bodies are. -/
theorem BodySound.branch (his : ∀ g, P.is (.func g) (.func g) = true) (hx : BodySound sc x R)
    (hy : BodySound sc y S) (qx : Quiet x) (qy : Quiet y) (u : Value) :
    BodySound sc (branch P u (.int 1) x y) (selected u.truth R S) where
  returned c o d hc hrun := by
    rcases branch_cases (P := P) hx hy qx qy u hc with ⟨t, tr, fa, e, rfl, htr, hfa, heq⟩ | h
    · rw [heq] at hrun
      have hret := returned_joinBranches his (fun σ => (P.eval_simplify t σ).symm) htr hfa hrun
      refine ⟨hret.kept, hret.terms, fun σ r hσ hr => hret.denotes σ r hσ ?_⟩
      rw [selected, P.eval_simplify]
      exact hr
    · obtain ⟨e, d', -, heq⟩ := h
      cases heq.symm.trans hrun
  unreachable c d hc hrun σ r hσ := by
    rcases branch_cases (P := P) hx hy qx qy u hc with ⟨t, tr, fa, e, rfl, htr, hfa, heq⟩ | h
    · rw [heq] at hrun
      exact absurd hσ (not_holds_of_joinBranches htr hfa hrun σ)
    · obtain ⟨e, d', hne, heq⟩ := h
      cases heq.symm.trans hrun
      exact absurd rfl hne

/-! ### Switches -/

theorem caseTerm_truth_eval {u : Value} {v x : BitVec w} (h : Stands σ u ⟨w, v⟩) :
    (caseTerm u (constantInt x.toNat w)).truth.eval σ = decide (v = x) := by
  obtain ⟨t, rfl, ht⟩ := h
  obtain ⟨t', hconst, ht'⟩ := stands_constantInt σ ⟨w, x⟩
  obtain ⟨e, he, heval⟩ := exists_eqTerm t t'
  dsimp only at ht ht' hconst
  have hcase : caseTerm t.value t'.value = ⟨.bool, e⟩ := by
    have heq : eqTerm t.value t'.value = .ok (.eq t t') := dif_pos rfl
    cases heq.symm.trans he
    exact dif_pos rfl
  rw [hconst, hcase, Value.truth, heval, ht, ht']

/-- The first case with the value is selected. -/
theorem BodySound.switch (his : ∀ g, P.is (.func g) (.func g) = true)
    {run : String → Py (Option Obj)} {R : String → Results} (hrun : ∀ bb, BodySound sc (run bb) (R bb))
    (hquiet : ∀ bb, Quiet (run bb)) (u : Value) (default : String)
    (cases : List (BitVec w × String)) :
    BodySound sc (switch P u (.int w) (run default) (cases.map fun x =>
        (constantInt x.1.toNat w, .int w, run x.2))) fun σ r =>
      ∃ v : BitVec w, Stands σ u ⟨w, v⟩ ∧ R ((cases.lookup v).getD default) σ r := by
  induction cases with
  | nil =>
    refine (hrun default).mono fun σ r => ?_
    rintro ⟨v, -, hr⟩
    exact hr
  | cons x cases ih =>
    have hcases : Quiet (Irpy.switch P u (.int w) (run default) (cases.map fun x =>
        (constantInt x.1.toNat w, .int w, run x.2))) := by
      refine Quiet.switch u _ (hquiet default) _ fun y hy => ?_
      obtain ⟨z, -, rfl⟩ := List.mem_map.1 hy
      exact hquiet _
    have htype : (Ty.int w).eq (.int w) = true := Ty.int_eq_int.trans (beq_self_eq_true w)
    rw [List.map_cons]
    by_cases hsort : u.sort = (constantInt x.1.toNat w).sort
    · have hbranch := BodySound.branch his (hrun x.2) ih (hquiet x.2) hcases
        (caseTerm u (constantInt x.1.toNat w))
      have heq : Irpy.switch P u (.int w) (run default) ((constantInt x.1.toNat w, .int w,
          run x.2) :: cases.map fun x => (constantInt x.1.toNat w, .int w, run x.2)) =
          Irpy.branch P (caseTerm u (constantInt x.1.toNat w)) (.int 1) (run x.2)
            (Irpy.switch P u (.int w) (run default) (cases.map fun x =>
              (constantInt x.1.toNat w, .int w, run x.2))) :=
        funext (switch_cons htype hsort)
      rw [heq]
      refine hbranch.mono fun σ r => ?_
      rintro ⟨v, hv, hr⟩
      rw [selected, caseTerm_truth_eval hv]
      rw [List.lookup_cons] at hr
      by_cases hvx : v = x.1
      · rw [if_pos (decide_eq_true hvx)]
        rw [beq_iff_eq.2 hvx] at hr
        exact hr
      · rw [if_neg (by simpa using hvx)]
        rw [beq_eq_false_iff_ne.2 hvx] at hr
        exact ⟨v, hv, hr⟩
    · -- the comparison raises an exception
      have hfail : ∀ c, Irpy.switch P u (.int w) (run default)
          ((constantInt x.1.toNat w, .int w, run x.2) :: cases.map fun x =>
            (constantInt x.1.toNat w, .int w, run x.2)) c = .error .z3 c := by
        intro c
        rw [Irpy.switch, Py.check_bind, if_pos htype, eqTerm, dif_neg fun h => hsort h.symm]
        rfl
      constructor
      · intro c o d _ h
        cases (hfail c).symm.trans h
      · intro c d _ h
        cases (hfail c).symm.trans h

end

end L4Thread.Irpy
