import L4Thread.Theory.Aggregate
import L4Thread.Theory.PointerEq

/-!
# Reads over writes

The memory of a reference keeps a function for every tuple of field numbers, and a write puts a
conditional in front of it. A read gives the last value that was written to the same field at the
same indices, as far as `util.If` can put the values that were written together.
-/

namespace L4Thread.Irpy

open Smt

variable {P : Lib} {σ : Env}

/-! ## Values under an assignment -/

/-- What an object is under an assignment. A pointer is the value of its name. -/
inductive Meaning
  | num (v : Σ s : Srt, s.Val)
  | cast (name : BitVec 64) (idxs : List (List (Σ s : Srt, s.Val)))
  | code (name : String)
  | other

def Obj.meaning (P : Lib) (σ : Env) : Obj → Meaning
  | expr v => .num (v.val σ)
  | ptr p => .num ⟨.bv 64, (p.name P).eval σ⟩
  | bitcast p _ gs => .cast ((p.name P).eval σ) (gs.map fun g => g.1.map (Value.val σ))
  | func name => .code name
  | lam c a b => if c.eval σ = true then a.meaning P σ else b.meaning P σ
  | _ => .other

theorem name_eq_of_eq {p q : Pointer} (h : p.eq P q = .ok true) : p.name P = q.name P := by
  cases p with
  | base r gs s =>
    cases q with
    | base r' hs t =>
      obtain ⟨e, he, h⟩ := bind_eq_ok_iff.mp h
      cases e with
      | false => cases h
      | true =>
        have hgeps := (Pointer.gepsEq_eq_ok he).mp rfl
        have hboth := Except.ok.inj h
        rw [Bool.and_eq_true, Reference.eq, Bool.and_eq_true, beq_iff_eq] at hboth
        rw [Pointer.name, Pointer.name, hgeps, hboth.1.2]
    | _ => exact of_decide_eq_true (Except.ok.inj h)
  | _ => exact of_decide_eq_true (Except.ok.inj h)

theorem castGepsEq_eq_true {gs hs : List (List Value × Ty)} (h : castGepsEq gs hs = .ok true) :
    gs.map Prod.fst = hs.map Prod.fst := by
  rw [castGepsEq] at h
  split at h
  · next hlen =>
    induction gs generalizing hs with
    | nil =>
      cases hs with
      | nil => rfl
      | cons => cases hlen
    | cons g gs ih =>
      cases hs with
      | nil => cases hlen
      | cons k hs =>
        obtain ⟨w, hw, h⟩ := bind_eq_ok_iff.mp h
        cases w with
        | false => cases h
        | true =>
          obtain ⟨e, he, htype⟩ := bind_eq_ok_iff.mp hw
          cases e with
          | false => cases htype
          | true =>
            rw [List.map_cons, List.map_cons, (Pointer.tupleEq_eq_ok he).mp rfl,
              ih (Nat.succ.inj hlen) h]
  · cases h

/-- Objects that are found equal are the same under every assignment. -/
theorem meaning_eq_of_definitelyEqual {a b : Obj} (h : definitelyEqual P a b = .ok true) :
    a.meaning P σ = b.meaning P σ := by
  have his : P.is a b = true → a.meaning P σ = b.meaning P σ := fun h => by rw [P.eq_of_is h]
  cases a with
  | expr u =>
    cases b with
    | expr v =>
      rw [definitelyEqual] at h
      split at h
      · cases h
      split at h
      · next hsort =>
        obtain ⟨s, t⟩ := u
        obtain ⟨s', t'⟩ := v
        obtain rfl : s = s' := hsort
        have heq := eval_eq_of_isLit (Except.ok.inj h) σ
        exact congrArg (fun x => Meaning.num ⟨s, x⟩) heq
      · cases h
    | _ => exact his (Except.ok.inj h)
  | ptr p =>
    cases b with
    | ptr q =>
      rw [definitelyEqual] at h
      split at h
      · next hsame => exact his hsame
      · rw [Obj.meaning, Obj.meaning, name_eq_of_eq h]
    | _ => exact his (Except.ok.inj h)
  | bitcast p s gs =>
    cases b with
    | bitcast q t hs =>
      rw [definitelyEqual] at h
      split at h
      · next hsame => exact his hsame
      split at h
      · obtain ⟨e, he, h⟩ := bind_eq_ok_iff.mp h
        cases e with
        | false => cases h
        | true =>
          have hgeps := castGepsEq_eq_true h
          rw [Obj.meaning, Obj.meaning, name_eq_of_eq he]
          congr 1
          have hmap := congrArg (List.map (List.map (Value.val σ))) hgeps
          rwa [List.map_map, List.map_map] at hmap
      · cases h
    | _ => exact his (Except.ok.inj h)
  | _ => exact his (Except.ok.inj h)

/-! ## Conditionals -/

/-- The condition is simplified to a truth value. -/
def Decided (P : Lib) (cond : Term .bool) : Prop :=
  (P.simplify (P.simplify cond)).isLit true = true ∨
    (P.simplify (P.simplify cond)).isLit false = true

/-- The object is the first or the second one by the condition. -/
def Picks (P : Lib) (cond : Term .bool) (m a b : Obj) : Prop :=
  ∀ σ, m.meaning P σ = if cond.eval σ = true then a.meaning P σ else b.meaning P σ

/-- The objects that `util.If` can put together. -/
def Joins (P : Lib) (cond : Term .bool) : Obj → Obj → Prop
  | .expr u, .expr v => u.sort = v.sort
  | .ptr _, .expr v => v.sort = .bv 64
  | .ptr p, .ptr q => ∃ e, definitelyEqual P (.ptr p) (.ptr q) = .ok e
  | .ptr _, _ => False
  | .bitcast p s gs, .bitcast q t hs =>
    definitelyEqual P (.bitcast p s gs) (.bitcast q t hs) = .ok true
  | a, b =>
    (a.isFunction ∨ b.isFunction) ∧ (a.isFunction ∨ ∀ σ, cond.eval σ = false) ∧
      (b.isFunction ∨ ∀ σ, cond.eval σ = true)

variable {cond : Term .bool} {a b m : Obj}

theorem isLit_of_not_decided (h : ¬Decided P cond) (v : Bool) :
    (P.simplify (P.simplify cond)).isLit v = false := by
  rw [Bool.eq_false_iff]
  intro hlit
  cases v with
  | true => exact h (.inl hlit)
  | false => exact h (.inr hlit)

/-- A condition that is decided needs no common form. -/
theorem exists_If_of_decided (h : Decided P cond) (a b : Obj) :
    ∃ m, If P cond a b = .ok m ∧ Picks P cond m a b := by
  by_cases hab : ∃ u v, a = .expr u ∧ b = .expr v
  · obtain ⟨u, v, rfl, rfl⟩ := hab
    rcases h with h | h
    · refine ⟨.expr u, ?_, fun σ => by rw [eval_of_simplify_isLit h σ, if_pos rfl]⟩
      rw [If, ifValue, if_pos h]
      rfl
    · have hne : ¬(P.simplify (P.simplify cond)).isLit true = true := fun ht => by
        have hT := eval_of_simplify_isLit ht default
        rw [eval_of_simplify_isLit h default] at hT
        cases hT
      refine ⟨.expr v, ?_, fun σ => by
        rw [eval_of_simplify_isLit h σ, if_neg Bool.false_ne_true]⟩
      rw [If, ifValue, if_neg hne, if_pos h]
      rfl
  · rw [If_eq_of_not_terms (not_terms_of_not_exists hab)]
    split
    · next ht => exact ⟨a, rfl, fun σ => by rw [eval_of_simplify_isLit ht σ, if_pos rfl]⟩
    · next hne =>
      have hf := h.resolve_left hne
      rw [if_pos hf]
      exact ⟨b, rfl, fun σ => by rw [eval_of_simplify_isLit hf σ, if_neg Bool.false_ne_true]⟩

theorem meaning_ne_other (h : ¬a.isFunction = true) : a.meaning P σ ≠ .other := by
  cases a with
  | expr | ptr | bitcast => nofun
  | _ => exact absurd rfl h

/-- Two objects as functions. -/
theorem picks_lam_iff : Picks P cond (.lam (P.simplify cond) a.asFunction b.asFunction) a b ↔
    (a.isFunction ∨ ∀ σ, cond.eval σ = false) ∧ (b.isFunction ∨ ∀ σ, cond.eval σ = true) := by
  have hfun : ∀ o : Obj, o.isFunction = true → ∀ σ, o.asFunction.meaning P σ = o.meaning P σ :=
    fun o ho σ => by rw [asFunction_eq ho]
  have hconst : ∀ o : Obj, ¬o.isFunction = true →
      ∀ σ, o.asFunction.meaning P σ ≠ o.meaning P σ := by
    intro o ho σ heq
    rw [Obj.asFunction, if_neg ho] at heq
    exact meaning_ne_other ho heq.symm
  constructor
  · intro h
    constructor
    · by_cases ha : a.isFunction = true
      · exact .inl ha
      · refine .inr fun σ => Bool.eq_false_iff.mpr fun hc => hconst a ha σ ?_
        have hσ := h σ
        rwa [Obj.meaning, P.eval_simplify, if_pos hc, if_pos hc] at hσ
    · by_cases hb : b.isFunction = true
      · exact .inl hb
      · refine .inr fun σ => ?_
        by_contra hc
        have hσ := h σ
        rw [Obj.meaning, P.eval_simplify, if_neg hc, if_neg hc] at hσ
        exact hconst b hb σ hσ
  · rintro ⟨ha, hb⟩ σ
    rw [Obj.meaning, P.eval_simplify]
    by_cases hc : cond.eval σ = true
    · rw [if_pos hc, if_pos hc]
      rcases ha with ha | ha
      · exact hfun a ha σ
      · rw [ha σ] at hc
        cases hc
    · rw [if_neg hc, if_neg hc]
      rcases hb with hb | hb
      · exact hfun b hb σ
      · exact absurd (hb σ) hc

theorem exists_If_terms_iff (h : ¬Decided P cond) {u v : Value} :
    (∃ m, If P cond (.expr u) (.expr v) = .ok m ∧ Picks P cond m (.expr u) (.expr v)) ↔
      u.sort = v.sort := by
  constructor
  · rintro ⟨m, hm, -⟩
    exact sort_eq_of_If (isLit_of_not_decided h) hm
  · intro hsort
    obtain ⟨s, t⟩ := u
    obtain ⟨s', t'⟩ := v
    obtain rfl : s = s' := hsort
    obtain ⟨w, hw, heval⟩ := exists_ifValue P cond t t'
    refine ⟨.expr ⟨s, w⟩, by rw [If, hw]; rfl, fun σ => ?_⟩
    rw [Obj.meaning, Value.val, heval σ]
    split <;> rfl

/-- `Pointer.ite` with a pointer. -/
theorem exists_iteObj_ptr (P : Lib) (cond : Term .bool) (p q : Pointer) :
    ∃ r, p.iteObj P (.ptr q) (P.simplify cond) = .ok r ∧
      Picks P cond (.ptr r) (.ptr p) (.ptr q) := by
  obtain ⟨t, ht, heval⟩ := exists_ifValue P (P.simplify cond) (p.name P) (q.name P)
  refine ⟨.ite (P.simplify cond) p q t p.type, ?_, fun σ => ?_⟩
  · show (ifName P (P.simplify cond) (p.name P) ⟨_, q.name P⟩ >>= _) = _
    rw [ifName, ht]
    rfl
  · show Meaning.num ⟨.bv 64, t.eval σ⟩ = _
    rw [heval σ, P.eval_simplify]
    split <;> rfl

/-- `Pointer.ite` with a term. -/
theorem exists_iteObj_word (P : Lib) (cond : Term .bool) (p : Pointer) (u : Term (.bv 64)) :
    ∃ r, p.iteObj P (.expr ⟨.bv 64, u⟩) (P.simplify cond) = .ok r ∧
      Picks P cond (.ptr r) (.ptr p) (.expr ⟨.bv 64, u⟩) := by
  obtain ⟨t, ht, heval⟩ := exists_ifValue P (P.simplify cond) (p.name P) u
  refine ⟨.ite (P.simplify cond) p (.raw u p.type) t p.type, ?_, fun σ => ?_⟩
  · show (ifName P (P.simplify cond) (p.name P) ⟨_, u⟩ >>= _) = _
    rw [ifName, ht]
    rfl
  · show Meaning.num ⟨.bv 64, t.eval σ⟩ = _
    rw [heval σ, P.eval_simplify]
    split <;> rfl

theorem sort_of_iteObj {p r : Pointer} {v : Value} {c : Term .bool}
    (h : p.iteObj P (.expr v) c = .ok r) : v.sort = .bv 64 := by
  obtain ⟨s, t⟩ := v
  cases s with
  | bv w =>
    obtain ⟨name, -, h⟩ := bind_eq_ok_iff.mp h
    split at h
    · next hw =>
      subst hw
      rfl
    · cases h
  | _ => cases h

/-- What is returned if the condition is not decided. -/
theorem exists_If_distinct_iff (h : ¬Decided P cond)
    (hab : (∀ u, a ≠ .expr u) ∨ ∀ v, b ≠ .expr v) :
    (∃ m, If P cond a b = .ok m ∧ Picks P cond m a b) ↔
      definitelyEqual P a b = .ok true ∨ definitelyEqual P a b = .ok false ∧
        ∃ m, ifDistinct P (P.simplify cond) a b = .ok m ∧ Picks P cond m a b := by
  rw [If_eq_of_not_terms hab, isLit_of_not_decided h, isLit_of_not_decided h]
  simp only [Bool.false_eq_true, if_false]
  cases he : definitelyEqual P a b with
  | error =>
    constructor
    · rintro ⟨_, h, -⟩
      cases h
    · rintro (h | ⟨h, -⟩) <;> cases h
  | ok e =>
    cases e with
    | false => exact ⟨fun h => .inr ⟨rfl, h⟩, fun h => h.elim nofun And.right⟩
    | true =>
      refine iff_of_true ⟨a, rfl, fun σ => ?_⟩ (.inl rfl)
      rw [meaning_eq_of_definitelyEqual he, ite_self]

/-- Objects that are compared by identity only. -/
theorem exists_If_functions_iff (h : ¬Decided P cond) (ha : ∀ p, a ≠ .ptr p)
    (hab : (∀ u, a ≠ .expr u) ∨ ∀ v, b ≠ .expr v)
    (heq : definitelyEqual P a b = .ok (P.is a b)) (hfun : a = b → a.isFunction) :
    (∃ m, If P cond a b = .ok m ∧ Picks P cond m a b) ↔
      (a.isFunction ∨ b.isFunction) ∧ (a.isFunction ∨ ∀ σ, cond.eval σ = false) ∧
        (b.isFunction ∨ ∀ σ, cond.eval σ = true) := by
  rw [exists_If_distinct_iff h hab, heq]
  constructor
  · rintro (his | ⟨-, m, hm, hpick⟩)
    · obtain rfl := P.eq_of_is (Except.ok.inj his)
      have ha := hfun rfl
      exact ⟨.inl ha, .inl ha, .inl ha⟩
    · obtain ⟨hor, rfl⟩ := ifDistinct_eq_lam ha hm
      exact ⟨hor, picks_lam_iff.mp hpick⟩
  · rintro ⟨hor, hboth⟩
    cases his : P.is a b with
    | true => exact .inl rfl
    | false =>
      refine .inr ⟨rfl, _, ?_, picks_lam_iff.mpr hboth⟩
      cases a with
      | ptr p => exact absurd rfl (ha p)
      | expr | bitcast => exact if_pos hor
      | _ => rfl

/-- What `util.If` does if the condition is not decided. -/
theorem exists_If_iff (h : ¬Decided P cond) :
    (∃ m, If P cond a b = .ok m ∧ Picks P cond m a b) ↔ Joins P cond a b := by
  cases a with
  | expr u =>
    cases b with
    | expr v => exact exists_If_terms_iff h
    | _ =>
      refine exists_If_functions_iff h (fun _ => nofun) (.inr fun _ hv => ?_) rfl fun he => ?_
      · cases hv
      · cases he
  | ptr p =>
    rw [exists_If_distinct_iff h (not_terms_ptr p)]
    cases b with
    | ptr q =>
      constructor
      · rintro (he | ⟨he, -⟩) <;> exact ⟨_, he⟩
      · rintro ⟨e, he⟩
        cases e with
        | true => exact .inl he
        | false =>
          obtain ⟨r, hr, hpick⟩ := exists_iteObj_ptr P cond p q
          refine .inr ⟨he, _, ?_, hpick⟩
          rw [ifDistinct, hr]
          rfl
    | expr v =>
      have hne : definitelyEqual P (.ptr p) (.expr v) = .ok false :=
        congrArg Except.ok (is_eq_false nofun)
      rw [hne]
      constructor
      · rintro (he | ⟨-, m, hm, -⟩)
        · cases he
        · obtain ⟨r, hr, -⟩ := bind_eq_ok_iff.mp hm
          exact sort_of_iteObj hr
      · intro hsort
        obtain ⟨s, t⟩ := v
        obtain rfl : s = .bv 64 := hsort
        obtain ⟨r, hr, hpick⟩ := exists_iteObj_word P cond p t
        refine .inr ⟨rfl, _, ?_, hpick⟩
        rw [ifDistinct, hr]
        rfl
    | _ =>
      refine iff_of_false ?_ nofun
      rintro (he | ⟨-, m, hm, -⟩)
      · exact absurd (P.eq_of_is (Except.ok.inj he)) nofun
      · cases hm
  | bitcast p s gs =>
    cases b with
    | bitcast q t hs =>
      have hab : (∀ u, Obj.bitcast p s gs ≠ .expr u) ∨ ∀ v, Obj.bitcast q t hs ≠ .expr v :=
        .inl nofun
      rw [exists_If_distinct_iff h hab]
      constructor
      · rintro (he | ⟨-, m, hm, -⟩)
        · exact he
        · cases hm
      · exact Or.inl
    | _ =>
      refine exists_If_functions_iff h (fun _ => nofun) (.inl fun _ => nofun) rfl fun he => ?_
      cases he
  | func | decl | update | lam | const =>
    exact exists_If_functions_iff h (fun _ => nofun) (.inl fun _ => nofun) rfl fun _ => rfl

/-! ## Paths -/

/-- A path from a type into its memory, at a depth of indices: a scalar part, by its tuple of field
numbers and the indices of the arrays. Only the outermost pointer is followed. -/
inductive PathTo (P : Lib) (Γ : List (Term .bool)) :
    Ty → Nat → List Value → List Nat → List Value → Prop
  | int {w depth : Nat} : PathTo P Γ (.int w) depth [] [] []
  | stored {t : Ty} {depth : Nat} (h : depth ≠ 0) : PathTo P Γ (.pointer t) depth [] [] []
  | pointer {t : Ty} {i : Term (.bv 64)} {path : List Value} {fields : List Nat} {idxs : List Value}
    (hzero : ∀ σ, Holds σ Γ → i.eval σ = 0) (h : PathTo P Γ t 1 path fields idxs) :
    PathTo P Γ (.pointer t) 0 (⟨.bv 64, i⟩ :: path) fields (⟨.bv 64, i⟩ :: idxs)
  | array {n depth : Nat} {t : Ty} {i : Term (.bv 64)} {path : List Value} {fields : List Nat}
    {idxs : List Value} (hlen : n < 2 ^ 64) (hbound : ∀ σ, Holds σ Γ → (i.eval σ).toNat < n)
    (h : PathTo P Γ t (depth + 1) path fields idxs) :
    PathTo P Γ (.array n t) depth (⟨.bv 64, i⟩ :: path) fields (⟨.bv 64, i⟩ :: idxs)
  | struct {name : String} {ts : List Ty} {size : Option Nat} {depth k : Nat} {t : Ty} {v : Value}
    {path : List Value} {fields : List Nat} {idxs : List Value} (hv : numeral P v = some k)
    (ht : ts[k]? = some t) (h : PathTo P Γ t depth path fields idxs) :
    PathTo P Γ (.struct name ts size) depth (v :: path) (k :: fields) idxs

variable {c d e : Ctx} {Γ : List (Term .bool)} {t : Ty} {depth : Nat} {path idxs : List Value}
  {fields : List Nat}

theorem pathConditionImplies_eq_true {u : Term .bool}
    (h : ∀ σ, Holds σ c.assertions → u.eval σ = true) :
    pathConditionImplies P u c = .ok true c := by
  show EStateM.Result.ok (P.implies c.assertions u) c = _
  rw [P.implies_iff.mpr h]

theorem PathTo.build (h : PathTo P c.assertions t depth path fields idxs) :
    buildFieldTupleAndPath P t path c = .ok (fields, idxs) c := by
  induction h with
  | int | stored => rfl
  | pointer hzero h ih =>
    rw [buildFieldTupleAndPath, indexZero, Py.ofExcept_ok_bind, Py.bind_apply,
      pathConditionImplies_eq_true fun σ hσ => (Term.eval_eq_iff ..).mpr (hzero σ hσ)]
    dsimp only
    rw [if_pos rfl, Py.bind_apply, ih]
    rfl
  | @array n depth t i path fields idxs hlen hbound h ih =>
    have hbelow : ∀ σ, Holds σ c.assertions →
        (Term.cmp .ult i (.lit (BitVec.ofNat 64 n))).eval σ = true := by
      intro σ hσ
      rw [Term.eval, Term.eval_lit]
      refine decide_eq_true ?_
      rw [BitVec.toNat_ofNat, Nat.mod_eq_of_lt hlen]
      exact hbound σ hσ
    rw [buildFieldTupleAndPath, indexBelow, Py.ofExcept_ok_bind, Py.bind_apply,
      pathConditionImplies_eq_true hbelow]
    dsimp only
    rw [if_pos rfl, Py.bind_apply, ih]
    rfl
  | struct hv ht h ih =>
    rw [buildFieldTupleAndPath, hv]
    dsimp only
    rw [ht]
    dsimp only
    rw [Py.bind_apply, ih]
    rfl

theorem PathTo.sort_eq (h : PathTo P Γ t depth path fields idxs) :
    ∀ v ∈ idxs, v.sort = .bv 64 := by
  induction h with
  | int | stored => nofun
  | pointer _ _ ih | array _ _ _ ih => exact List.forall_mem_cons.mpr ⟨rfl, ih⟩
  | struct _ _ _ ih => exact ih

/-! ## Symbols of a fresh reference -/

theorem keys_leaf {name : String} {w : Nat} {tup key : List Nat} {r : Dict (List Nat) Obj}
    (h : freshRef.leaf name w tup depth c = .ok r d) : key ∈ r → tup <+: key := by
  obtain ⟨n, e, -, h⟩ := Py.bind_eq_ok.mp h
  cases h
  intro hkey
  rw [AList.mem_insert] at hkey
  rcases hkey with rfl | hkey
  · exact List.prefix_refl _
  · exact absurd hkey (AList.notMem_empty _)

mutual

/-- The parts of a type have its field numbers in front. -/
theorem keys_freshRef {name : String} : ∀ (t : Ty) {tup key : List Nat} {depth : Nat} {c d : Ctx}
    {r : Dict (List Nat) Obj}, freshRef name t tup depth c = .ok r d → key ∈ r → tup <+: key
  | .struct _ ts _, _, _, _, _, _, _, h, hkey => by
    obtain ⟨j, -, hj⟩ := keys_fields ts h hkey
    exact (List.prefix_append _ _).trans hj
  | .int _, _, _, _, _, _, _, h, hkey => keys_leaf h hkey
  | .pointer t, _, _, _, _, _, _, h, hkey => by
    rw [freshRef] at h
    split at h
    · exact keys_leaf h hkey
    · exact keys_freshRef t h hkey
  | .array _ t, _, _, _, _, _, _, h, hkey => keys_freshRef t h hkey
  | .void, _, _, _, _, _, _, h, _ => nomatch h
  | .function _, _, _, _, _, _, _, h, _ => nomatch h

theorem keys_fields {name : String} : ∀ (ts : List Ty) {tup key : List Nat} {depth i : Nat}
    {c d : Ctx} {r : Dict (List Nat) Obj}, freshRef.fields name tup depth i ts c = .ok r d →
    key ∈ r → ∃ j, i ≤ j ∧ tup ++ [j] <+: key
  | [], _, _, _, _, _, _, _, h, hkey => by
    cases h
    exact absurd hkey (AList.notMem_empty _)
  | t :: ts, _, _, _, i, _, _, _, h, hkey => by
    obtain ⟨_, _, ht, h⟩ := Py.bind_eq_ok.mp h
    obtain ⟨_, _, hts, h⟩ := Py.bind_eq_ok.mp h
    cases h
    rcases AList.mem_union.mp hkey with hkey | hkey
    · exact ⟨i, Nat.le_refl i, keys_freshRef t ht hkey⟩
    · obtain ⟨j, hj, htup⟩ := keys_fields ts hts hkey
      exact ⟨j, Nat.le_of_succ_le hj, htup⟩

end

/-- The symbols of a part of a struct. -/
theorem lookup_fields {name : String} {ts : List Ty} {tup : List Nat} {i k : Nat}
    {r : Dict (List Nat) Obj} (h : freshRef.fields name tup depth i ts c = .ok r d)
    (ht : ts[k]? = some t) : ∃ r' c' d', freshRef name t (tup ++ [i + k]) depth c' = .ok r' d' ∧
      ∀ key o, tup ++ [i + k] <+: key → r'.lookup key = some o → r.lookup key = some o := by
  induction ts generalizing i k c r with
  | nil => cases ht
  | cons u ts ih =>
    obtain ⟨r₁, c₁, hu, h⟩ := Py.bind_eq_ok.mp h
    obtain ⟨r₂, c₂, hts, h⟩ := Py.bind_eq_ok.mp h
    cases h
    cases k with
    | zero =>
      cases ht
      refine ⟨r₁, c, c₁, hu, fun key o _ ho => ?_⟩
      rw [AList.lookup_union_left (AList.lookup_isSome.mp (by rw [ho]; rfl))]
      exact ho
    | succ k =>
      obtain ⟨r', c', d', hr', hlookup⟩ := ih hts ht
      rw [Nat.succ_add_eq_add_succ] at hr' hlookup
      refine ⟨r', c', d', hr', fun key o hkey ho => ?_⟩
      rw [AList.lookup_union_right ?_]
      · exact hlookup key o hkey ho
      · intro hmem
        have hi := List.prefix_of_prefix_length_le (keys_freshRef u hu hmem) hkey (by simp)
        have heq := List.IsPrefix.eq_of_length hi (by simp)
        have hik := List.singleton_inj.mp (List.append_cancel_left heq)
        omega

/-- The symbol of a scalar part takes an index for each array on the way. -/
theorem PathTo.lookup {name : String} {tup : List Nat} {r : Dict (List Nat) Obj}
    (h : PathTo P Γ t depth path fields idxs) (hr : freshRef name t tup depth c = .ok r d) :
    ∃ f s, r.lookup (tup ++ fields) = some (.decl f (depth + idxs.length) s) := by
  induction h generalizing tup c d r with
  | int =>
    obtain ⟨n, e, -, hr⟩ := Py.bind_eq_ok.mp hr
    cases hr
    exact ⟨_, _, by rw [List.append_nil]; exact AList.lookup_insert _⟩
  | stored hdepth =>
    rw [freshRef, if_pos hdepth] at hr
    obtain ⟨n, e, -, hr⟩ := Py.bind_eq_ok.mp hr
    cases hr
    exact ⟨_, _, by rw [List.append_nil]; exact AList.lookup_insert _⟩
  | pointer _ _ ih =>
    obtain ⟨f, s, hf⟩ := ih hr
    refine ⟨f, s, hf.trans ?_⟩
    rw [List.length_cons, Nat.zero_add, Nat.add_comm]
  | array _ _ _ ih =>
    obtain ⟨f, s, hf⟩ := ih hr
    refine ⟨f, s, hf.trans ?_⟩
    rw [List.length_cons, Nat.add_assoc, Nat.add_comm 1]
  | @struct _ _ _ _ k _ _ _ fields _ _ ht _ ih =>
    obtain ⟨r', c', d', hr', hlookup⟩ := lookup_fields hr ht
    rw [Nat.zero_add] at hr' hlookup
    obtain ⟨f, s, hf⟩ := ih hr'
    refine ⟨f, s, ?_⟩
    rw [List.append_assoc, List.singleton_append] at hf
    refine hlookup _ _ ?_ hf
    exact ⟨fields, by rw [List.append_assoc, List.singleton_append]⟩

/-! ## Reads and writes -/

/-- The function of a field of a reference. -/
def Ctx.field (c : Ctx) (name : String) (fields : List Nat) : Option Obj :=
  (c.references.lookup name).bind fun r => r.lookup fields

/-- A path into the memory of a reference. -/
structure TypedPath (P : Lib) (Γ : List (Term .bool)) where
  ref : Reference
  path : List Value
  fields : List Nat
  idxs : List Value
  typed : PathTo P Γ ref.type 0 path fields idxs

structure Write (P : Lib) (Γ : List (Term .bool)) extends TypedPath P Γ where
  value : Obj

/-- The reference is as `init_ref` leaves it. -/
def Initialised (c : Ctx) (ref : Reference) : Prop :=
  ∃ r d e, c.references.lookup ref.name = some r ∧ freshRef ref.name ref.type [] 0 d = .ok r e

theorem initialised_of_initRef {ref : Reference} {u : Unit} (h : initRef ref c = .ok u d) :
    Initialised d ref := by
  obtain ⟨r, hfresh⟩ := initRef_spec h
  obtain ⟨e, he⟩ := hfresh.symbols
  refine ⟨r, c, e, ?_, he⟩
  rw [hfresh.references, AList.lookup_insert]

theorem fieldFunction_of_field {ref : Reference} {f : Obj} (h : c.field ref.name fields = some f) :
    fieldFunction ref fields c = .ok f c := by
  obtain ⟨r, hr, hf⟩ := Option.bind_eq_some_iff.mp h
  exact fieldFunction_eq hr hf

theorem Initialised.field {p : TypedPath P Γ} (h : Initialised c p.ref) :
    ∃ f s, c.field p.ref.name p.fields = some (.decl f p.idxs.length s) := by
  obtain ⟨r, d, e, hr, hfresh⟩ := h
  obtain ⟨f, s, hf⟩ := p.typed.lookup hfresh
  rw [Nat.zero_add] at hf
  exact ⟨f, s, Option.bind_eq_some_iff.mpr ⟨r, hr, hf⟩⟩

namespace TypedPath

/-- `read` calls the function of the field. -/
theorem read_eq (p : TypedPath P Γ) {f : Obj} (hΓ : c.assertions = Γ)
    (h : c.field p.ref.name p.fields = some f) :
    p.ref.read P p.path c = ofExcept (f.apply P p.idxs)
      { c with accessed := c.accessed.insert p.ref.name } := by
  subst hΓ
  have hfield : fieldFunction p.ref p.fields
      { c with accessed := c.accessed.insert p.ref.name } = .ok f _ := fieldFunction_of_field h
  rw [Reference.read, Py.bind_apply, p.typed.build]
  change ((fieldFunction p.ref p.fields >>= fun g => ofExcept (g.apply P p.idxs))
    { c with accessed := c.accessed.insert p.ref.name }) = _
  rw [Py.bind_apply, hfield]

theorem read_eq_ok (p : TypedPath P Γ) {f m : Obj} (hΓ : c.assertions = Γ)
    (h : c.field p.ref.name p.fields = some f) :
    (∃ e, p.ref.read P p.path c = .ok m e) ↔ f.apply P p.idxs = .ok m := by
  rw [p.read_eq hΓ h]
  cases f.apply P p.idxs with
  | error => exact ⟨fun ⟨_, h⟩ => (nomatch h), nofun⟩
  | ok o =>
    constructor
    · rintro ⟨e, he⟩
      cases he
      rfl
    · rintro ⟨⟩
      exact ⟨_, rfl⟩

end TypedPath

/-- `write` puts the value in front of the function of the field. -/
theorem Write.write_eq (w : Write P Γ) {f : Obj} (hΓ : c.assertions = Γ)
    (h : c.field w.ref.name w.fields = some f) :
    ∃ d, w.ref.write P w.path w.value c = .ok () d ∧ d.assertions = Γ ∧
      ∀ name fields, d.field name fields =
        if name = w.ref.name ∧ fields = w.fields then some (.update f w.idxs w.value)
        else c.field name fields := by
  subst hΓ
  obtain ⟨r, hr, hf⟩ := Option.bind_eq_some_iff.mp h
  refine ⟨{ c with
    accessed := c.accessed.insert w.ref.name
    references := c.references.insert w.ref.name (r.insert w.fields (.update f w.idxs w.value)) },
    ?_, rfl, fun name fields => ?_⟩
  · rw [Reference.write, Py.bind_apply, w.typed.build]
    change (fieldFunction w.ref w.fields >>= _) c = _
    rw [Py.bind_apply, fieldFunction_of_field h]
    change EStateM.Result.ok () { c with
      accessed := c.accessed.insert w.ref.name
      references := c.references.insert w.ref.name
        (((c.references.lookup w.ref.name).getD ∅).insert w.fields (.update f w.idxs w.value)) } = _
    rw [hr]
    rfl
  · show ((c.references.insert w.ref.name _).lookup name).bind _ = _
    by_cases hname : name = w.ref.name
    · subst hname
      rw [AList.lookup_insert, Option.bind_some]
      by_cases hfields : fields = w.fields
      · rw [if_pos ⟨rfl, hfields⟩, hfields, AList.lookup_insert]
      · rw [if_neg (hfields ·.2), AList.lookup_insert_ne hfields, Ctx.field, hr, Option.bind_some]
    · rw [if_neg (hname ·.1), AList.lookup_insert_ne hname]
      rfl

/-! ## Sequences of writes -/

/-- The writes one after another. -/
def writeAll (P : Lib) : List (Write P Γ) → Py Unit
  | [] => pure ()
  | w :: ws => do
    w.ref.write P w.path w.value
    writeAll P ws

/-- The write is to the field that is read, at indices that are equal under the assignment. -/
def Write.Hits (w : Write P Γ) (σ : Env) (p : TypedPath P Γ) : Prop :=
  w.ref.name = p.ref.name ∧ w.fields = p.fields ∧
    w.idxs.map (Value.val σ) = p.idxs.map (Value.val σ)

open Classical in
/-- The value that was written last, or the initial one. -/
noncomputable def lastWritten (σ : Env) (p : TypedPath P Γ) (init : Obj) (ws : List (Write P Γ)) :
    Obj :=
  ws.foldl (fun o w => if w.Hits σ p then w.value else o) init

variable {p : TypedPath P Γ} {w : Write P Γ} {ws us : List (Write P Γ)} {f init old : Obj}

theorem lastWritten_append_of_hits (h : w.Hits σ p) :
    lastWritten σ p init (ws ++ [w]) = w.value := by
  rw [lastWritten, List.foldl_append]
  exact if_pos h

theorem lastWritten_append_of_not_hits (h : ¬w.Hits σ p) :
    lastWritten σ p init (ws ++ [w]) = lastWritten σ p init ws := by
  rw [lastWritten, List.foldl_append]
  exact if_neg h

theorem writeAll_append : writeAll P (ws ++ [w]) c = .ok () d ↔
    ∃ e, writeAll P ws c = .ok () e ∧ w.ref.write P w.path w.value e = .ok () d := by
  induction ws generalizing c with
  | nil =>
    refine Py.bind_eq_ok.trans ?_
    constructor
    · rintro ⟨_, e, hw, ⟨⟩⟩
      exact ⟨c, rfl, hw⟩
    · rintro ⟨_, ⟨⟩, hw⟩
      exact ⟨(), d, hw, rfl⟩
  | cons v ws ih =>
    refine Py.bind_eq_ok.trans ?_
    constructor
    · rintro ⟨u, b, hv, h⟩
      obtain ⟨e, hws, hw⟩ := ih.mp h
      exact ⟨e, Py.bind_eq_ok.mpr ⟨u, b, hv, hws⟩, hw⟩
    · rintro ⟨e, hws, hw⟩
      obtain ⟨u, b, hv, hws⟩ := Py.bind_eq_ok.mp hws
      exact ⟨u, b, hv, ih.mpr ⟨e, hws, hw⟩⟩

/-- What writes to `init_ref`'s references keep. -/
structure Wrote (c d : Ctx) (ws : List (Write P Γ)) : Prop where
  assertions : d.assertions = Γ
  isSome : ∀ name fields, (c.field name fields).isSome → (d.field name fields).isSome
  others : ∀ name fields, (∀ w ∈ ws, ¬(name = w.ref.name ∧ fields = w.fields)) →
    d.field name fields = c.field name fields

/-- The writes return. -/
theorem exists_writeAll (hΓ : c.assertions = Γ) (hws : ∀ w ∈ ws, Initialised c w.ref) :
    ∃ d, writeAll P ws c = .ok () d ∧ Wrote c d ws := by
  induction ws using List.reverseRecOn with
  | nil => exact ⟨c, rfl, hΓ, fun _ _ h => h, fun _ _ _ => rfl⟩
  | append_singleton ws w ih =>
    rw [List.forall_mem_append, List.forall_mem_singleton] at hws
    obtain ⟨d, hd, hwrote⟩ := ih hws.1
    obtain ⟨g, s, hg⟩ := hws.2.field
    obtain ⟨f, hf⟩ := Option.isSome_iff_exists.mp (hwrote.isSome _ _ (by rw [hg]; rfl))
    obtain ⟨e, he, hΓe, hfield⟩ := w.write_eq hwrote.assertions hf
    refine ⟨e, writeAll_append.mpr ⟨d, hd, he⟩, hΓe, fun name fields h => ?_,
      fun name fields h => ?_⟩
    · rw [hfield]
      split
      · rfl
      · exact hwrote.isSome name fields h
    · rw [List.forall_mem_append, List.forall_mem_singleton] at h
      rw [hfield, if_neg h.2]
      exact hwrote.others name fields h.1

/-- The read behind the writes gives the last value that was written, and the writes change nothing
else. -/
structure ReadsLast (P : Lib) (c : Ctx) (p : TypedPath P Γ) (ws : List (Write P Γ)) : Prop where
  read : ∃ init b d m e, p.ref.read P p.path c = .ok init b ∧ writeAll P ws c = .ok () d ∧
    p.ref.read P p.path d = .ok m e ∧
    ∀ σ, m.meaning P σ = (lastWritten σ p init ws).meaning P σ
  others : ∀ d, writeAll P ws c = .ok () d → ∀ name fields,
    (∀ w ∈ ws, ¬(name = w.ref.name ∧ fields = w.fields)) → d.field name fields = c.field name fields

theorem exists_argTerms {as : List Value} (h : ∀ v ∈ as, v.sort = .bv 64) :
    ∃ xs, argTerms as = .ok xs := by
  induction as with
  | nil => exact ⟨_, rfl⟩
  | cons a as ih =>
    rw [List.forall_mem_cons] at h
    obtain ⟨xs, hxs⟩ := ih h.2
    obtain ⟨s, t⟩ := a
    obtain rfl : s = .bv 64 := h.1
    exact ⟨.cons t xs, by rw [argTerms, hxs]; rfl⟩

/-- The equation of two index lists of the same length. -/
theorem exists_indicesEq {as bs : List Value} (hlen : as.length = bs.length)
    (ha : ∀ v ∈ as, v.sort = .bv 64) (hb : ∀ v ∈ bs, v.sort = .bv 64) :
    ∃ cond, indicesEq as bs = .ok cond ∧
      ∀ σ, cond.eval σ = true ↔ as.map (Value.val σ) = bs.map (Value.val σ) := by
  induction as generalizing bs with
  | nil =>
    cases bs with
    | nil => exact ⟨.lit true, rfl, fun σ => by rw [Term.eval_lit]; exact iff_of_true rfl rfl⟩
    | cons => cases hlen
  | cons a as ih =>
    cases bs with
    | nil => cases hlen
    | cons b bs =>
      rw [List.forall_mem_cons] at ha hb
      obtain ⟨cond, hcond, heval⟩ := ih (Nat.succ.inj hlen) ha.2 hb.2
      obtain ⟨s, t⟩ := a
      obtain ⟨s', t'⟩ := b
      obtain rfl : s = .bv 64 := ha.1
      obtain rfl : s' = .bv 64 := hb.1
      refine ⟨.and (.eq t t') cond, ?_, fun σ => ?_⟩
      · rw [indicesEq, dif_pos rfl, hcond]
        rfl
      · rw [Term.eval, Bool.and_eq_true, Term.eval_eq_iff, heval, List.map_cons, List.map_cons,
          List.cons.injEq]
        refine and_congr_left fun _ => ?_
        constructor
        · intro h
          exact congrArg (Sigma.mk (Srt.bv 64)) h
        · intro h
          exact eq_of_heq (Sigma.mk.inj h).2

/-- The value can be put in front of what is read before. -/
def Fits (P : Lib) (c : Ctx) (w : Write P Γ) (p : TypedPath P Γ) : Prop :=
  w.ref.name = p.ref.name → w.fields = p.fields → ∀ cond f old, indicesEq w.idxs p.idxs = .ok cond →
    c.field p.ref.name p.fields = some f → f.apply P p.idxs = .ok old →
    Decided P cond ∨ Joins P cond w.value old

theorem exists_If_iff_decided_or : (∃ m, If P cond a b = .ok m ∧ Picks P cond m a b) ↔
    Decided P cond ∨ Joins P cond a b := by
  by_cases h : Decided P cond
  · exact iff_of_true (exists_If_of_decided h a b) (.inl h)
  · rw [exists_If_iff h, or_iff_right h]

/-- A write to the field that is read. -/
theorem read_update_iff {cond : Term .bool} (hcond : indicesEq w.idxs p.idxs = .ok cond)
    (heval : ∀ σ, cond.eval σ = true ↔ w.idxs.map (Value.val σ) = p.idxs.map (Value.val σ))
    (hname : w.ref.name = p.ref.name) (hfields : w.fields = p.fields)
    (hold : f.apply P p.idxs = .ok old)
    (hlast : ∀ σ, old.meaning P σ = (lastWritten σ p init ws).meaning P σ) :
    (∃ m, (Obj.update f w.idxs w.value).apply P p.idxs = .ok m ∧
        ∀ σ, m.meaning P σ = (lastWritten σ p init (ws ++ [w])).meaning P σ) ↔
      Decided P cond ∨ Joins P cond w.value old := by
  rw [← exists_If_iff_decided_or]
  have happly : (Obj.update f w.idxs w.value).apply P p.idxs = If P cond w.value old := by
    rw [Obj.apply, hcond, hold]
    rfl
  rw [happly]
  refine exists_congr fun m => and_congr_right fun _ => forall_congr' fun σ => ?_
  by_cases h : cond.eval σ = true
  · rw [if_pos h, lastWritten_append_of_hits ⟨hname, hfields, (heval σ).mp h⟩]
  · rw [if_neg h, lastWritten_append_of_not_hits fun hhits => h ((heval σ).mpr hhits.2.2), hlast σ]

/-- A read is a call of the function of the field. -/
theorem readsLast_iff_apply (hΓ : c.assertions = Γ) (hws : ∀ w ∈ ws, Initialised c w.ref)
    (hinit : p.ref.read P p.path c = .ok init e) (hd : writeAll P ws c = .ok () d)
    (hf : d.field p.ref.name p.fields = some f) :
    ReadsLast P c p ws ↔ ∃ m, f.apply P p.idxs = .ok m ∧
      ∀ σ, m.meaning P σ = (lastWritten σ p init ws).meaning P σ := by
  obtain ⟨d', hd', hwrote⟩ := exists_writeAll hΓ hws
  cases hd.symm.trans hd'
  constructor
  · rintro ⟨⟨init', b, d', m, b', hinit', hd', hm, hlast⟩, -⟩
    cases hinit.symm.trans hinit'
    cases hd.symm.trans hd'
    exact ⟨m, (p.read_eq_ok hwrote.assertions hf).mp ⟨b', hm⟩, hlast⟩
  · rintro ⟨m, hm, hlast⟩
    obtain ⟨b, hb⟩ := (p.read_eq_ok hwrote.assertions hf).mpr hm
    refine ⟨⟨init, e, d, m, b, hinit, hd, hb, hlast⟩, fun d' hd' => ?_⟩
    cases hd.symm.trans hd'
    exact hwrote.others

theorem exists_initial (hΓ : c.assertions = Γ) (hp : Initialised c p.ref) :
    ∃ init e, p.ref.read P p.path c = .ok init e := by
  obtain ⟨g, s, hg⟩ := hp.field
  obtain ⟨xs, hxs⟩ := exists_argTerms p.typed.sort_eq
  obtain ⟨e, he⟩ := (p.read_eq_ok hΓ hg (m := .expr ⟨s, .app g xs s⟩)).mpr (by
    rw [Obj.apply, if_pos rfl, hxs]
    rfl)
  exact ⟨_, e, he⟩

/-- A read behind one more write. -/
theorem readsLast_append_iff (hΓ : c.assertions = Γ) (hp : Initialised c p.ref)
    (hws : ∀ v ∈ ws ++ [w], Initialised c v.ref) (h : ReadsLast P c p ws)
    (hd : writeAll P ws c = .ok () d) : ReadsLast P c p (ws ++ [w]) ↔ Fits P d w p := by
  have hall := List.forall_mem_append.mp hws
  have hw := List.forall_mem_singleton.mp hall.2
  obtain ⟨init, b, hinit⟩ := exists_initial hΓ hp
  obtain ⟨d', hd', hwrote⟩ := exists_writeAll hΓ hall.1
  cases hd.symm.trans hd'
  obtain ⟨g, s, hg⟩ := hp.field
  obtain ⟨f, hf⟩ := Option.isSome_iff_exists.mp (hwrote.isSome _ _ (by rw [hg]; rfl))
  obtain ⟨old, hold, hlast⟩ := (readsLast_iff_apply hΓ hall.1 hinit hd hf).mp h
  obtain ⟨g', s', hg'⟩ := hw.field
  obtain ⟨f', hf'⟩ := Option.isSome_iff_exists.mp (hwrote.isSome _ _ (by rw [hg']; rfl))
  obtain ⟨e, he, hΓe, hfield⟩ := w.write_eq hwrote.assertions hf'
  have hrun : writeAll P (ws ++ [w]) c = .ok () e := writeAll_append.mpr ⟨d, hd, he⟩
  by_cases hsame : p.ref.name = w.ref.name ∧ p.fields = w.fields
  · rw [← hsame.1, ← hsame.2] at hg' hf'
    cases hf.symm.trans hf'
    have hlen : w.idxs.length = p.idxs.length :=
      (Obj.decl.inj (Option.some.inj (hg'.symm.trans hg))).2.1
    obtain ⟨cond, hcond, heval⟩ := exists_indicesEq hlen w.typed.sort_eq p.typed.sort_eq
    have hnew := hfield p.ref.name p.fields
    rw [if_pos hsame] at hnew
    rw [readsLast_iff_apply hΓ hws hinit hrun hnew,
      read_update_iff hcond heval hsame.1.symm hsame.2.symm hold hlast]
    constructor
    · intro hor _ _ cond' f' old' hcond' hf' hold'
      cases hcond.symm.trans hcond'
      cases hf.symm.trans hf'
      cases hold.symm.trans hold'
      exact hor
    · intro hfits
      exact hfits hsame.1.symm hsame.2.symm cond f old hcond hf hold
  · have hnew := (hfield p.ref.name p.fields).trans (if_neg hsame)
    rw [readsLast_iff_apply hΓ hws hinit hrun (hnew.trans hf)]
    refine iff_of_true ⟨old, hold, fun σ => ?_⟩ fun hname hfields =>
      absurd ⟨hname.symm, hfields.symm⟩ hsame
    rw [hlast σ, lastWritten_append_of_not_hits fun hhits => hsame ⟨hhits.1.symm, hhits.2.1.symm⟩]

/-- After every write the last value is read exactly if every value fits. -/
theorem readsLast_iff (hΓ : c.assertions = Γ) (hp : Initialised c p.ref)
    (hws : ∀ w ∈ ws, Initialised c w.ref) :
    (∀ us, us <+: ws → ReadsLast P c p us) ↔
      ∀ us w d, us ++ [w] <+: ws → writeAll P us c = .ok () d → Fits P d w p := by
  induction ws using List.reverseRecOn with
  | nil =>
    constructor
    · intro _ us w d hle
      exact absurd (List.prefix_nil.mp hle) (by simp)
    · intro _ us hle
      rw [List.prefix_nil.mp hle]
      obtain ⟨init, e, hinit⟩ := exists_initial hΓ hp
      exact ⟨⟨init, e, c, init, e, hinit, rfl, hinit, fun _ => rfl⟩, by rintro _ ⟨⟩ _ _ _; rfl⟩
  | append_singleton ws w ih =>
    have hall := List.forall_mem_append.mp hws
    have ih := ih hall.1
    obtain ⟨d, hd, -⟩ := exists_writeAll hΓ hall.1
    constructor
    · intro h us v e hle he
      rcases List.prefix_concat_iff.mp hle with heq | hle
      · obtain ⟨rfl, hlast⟩ := List.append_inj' heq rfl
        obtain rfl := List.singleton_inj.mp hlast
        exact (readsLast_append_iff hΓ hp hws (h _ (List.prefix_append ..)) he).mp
          (h _ (List.prefix_refl _))
      · exact ih.mp (fun us hus => h us (hus.trans (List.prefix_append ..))) us v e hle he
    · intro h us hle
      have hbefore := ih.mpr fun us v e hle => h us v e (hle.trans (List.prefix_append ..))
      rcases List.prefix_concat_iff.mp hle with rfl | hle
      · exact (readsLast_append_iff hΓ hp hws (hbefore _ (List.prefix_refl _)) hd).mpr
          (h ws w d (List.prefix_refl _) hd)
      · exact hbefore us hle

/-! ## Arrays of ten words and of ten pointers -/

def symbol (name : String) : Term (.bv 64) := .var name (.bv 64)

def below (name : String) : Term .bool := .cmp .ult (symbol name) (.lit 10)

def bounds : List (Term .bool) := [below "x", below "y", below "z"]

/-- The indices are known to be within the bounds. -/
def boundedStart : Ctx := { Ctx.new with solver := [bounds] }

def words : Reference := ⟨"words", .array 10 (.int 64)⟩

def pointers : Reference := ⟨"pointers", .array 10 (.pointer (.int 64))⟩

theorem lt_of_bounds {name : String} (h : below name ∈ bounds) {σ : Env} (hσ : Holds σ bounds) :
    ((symbol name).eval σ).toNat < 10 := by
  have hlt := hσ _ h
  rw [below, Term.eval, Term.eval_lit] at hlt
  exact of_decide_eq_true hlt

theorem pathTo_array {name : String} {t : Ty} (h : below name ∈ bounds)
    (ht : PathTo P bounds t 1 [] [] []) :
    PathTo P bounds (.array 10 t) 0 [.ofTerm (symbol name)] [] [.ofTerm (symbol name)] :=
  .array (by decide) (fun _ hσ => lt_of_bounds h hσ) ht

def wordAt (name : String) (h : below name ∈ bounds) : TypedPath P bounds :=
  ⟨words, _, _, _, pathTo_array h .int⟩

def pointerAt (name : String) (h : below name ∈ bounds) : TypedPath P bounds :=
  ⟨pointers, _, _, _, pathTo_array h (.stored Nat.one_ne_zero)⟩

theorem exists_initRef_words : ∃ c g, initRef words boundedStart = .ok () c ∧
    c.assertions = bounds ∧ c.field words.name [] = some (.decl g 1 (.bv 64)) :=
  ⟨_, _, rfl, rfl, rfl⟩

theorem exists_initRef_pointers : ∃ c g, initRef pointers boundedStart = .ok () c ∧
    c.assertions = bounds ∧ c.field pointers.name [] = some (.decl g 1 (.bv 64)) :=
  ⟨_, _, rfl, rfl, rfl⟩

def setWord (name : String) (h : below name ∈ bounds) : Write P bounds :=
  ⟨wordAt name h, .expr (.ofTerm (symbol "v"))⟩

def setNull (name : String) (h : below name ∈ bounds) : Write P bounds :=
  ⟨pointerAt name h, .ptr (.raw null (.pointer (.int 64)))⟩

def setLoaded (name : String) (h : below name ∈ bounds) : Write P bounds :=
  ⟨pointerAt name h, .expr (.ofTerm (symbol "v"))⟩

/-- A word that is written at `x` is read at `y`. -/
theorem exists_readsLast : ∃ c, initRef words boundedStart = .ok () c ∧
    ∀ us, us <+: [setWord "x" (by decide)] →
      ReadsLast .folding c (wordAt "y" (by decide)) us := by
  obtain ⟨c, g, hc, hΓ, hfield⟩ := exists_initRef_words
  have hwords := initialised_of_initRef hc
  refine ⟨c, hc, (readsLast_iff hΓ hwords (List.forall_mem_singleton.mpr hwords)).mpr ?_⟩
  intro us w d hle hd _ _ cond f old _ hf hold
  cases us with
  | cons v us => exact absurd (List.cons_prefix_cons.mp hle).2 (by simp)
  | nil =>
    obtain ⟨rfl, -⟩ := List.cons_prefix_cons.mp hle
    cases hd
    cases hfield.symm.trans hf
    cases hold
    exact .inr rfl

/-- A pointer that is not known to be the same one is a pointer afterwards. -/
theorem exists_ptr_of_If {q : Pointer} (h : ¬Decided P cond) (hm : If P cond (.ptr q) b = .ok m) :
    ∃ r, m = .ptr r := by
  rw [If_eq_of_not_terms (not_terms_ptr q), isLit_of_not_decided h, isLit_of_not_decided h] at hm
  simp only [Bool.false_eq_true, if_false] at hm
  obtain ⟨e, -, hm⟩ := bind_eq_ok_iff.mp hm
  split at hm
  · cases hm
    exact ⟨q, rfl⟩
  · obtain ⟨r, -, hr⟩ := bind_eq_ok_iff.mp hm
    cases hr
    exact ⟨r, rfl⟩

/-- A term has no `ite`. -/
theorem If_term_ptr (h : ¬Decided P cond) (v : Value) (q : Pointer) :
    If P cond (.expr v) (.ptr q) = .error .z3 := by
  have hab : (∀ u, Obj.expr v ≠ .expr u) ∨ ∀ u, Obj.ptr q ≠ .expr u := .inr nofun
  have hdef : definitelyEqual P (.expr v) (.ptr q) = .ok false :=
    congrArg Except.ok (is_eq_false nofun)
  rw [If_eq_of_not_terms hab, isLit_of_not_decided h, isLit_of_not_decided h, hdef]
  rfl

def symbolsEq (x y : String) : Term .bool := .and (.eq (symbol x) (symbol y)) (.lit true)

/-- The equation of two symbols is not decided. -/
theorem not_decided_symbolsEq (x y : String) : ¬Decided .folding (symbolsEq x y) := by
  have hsimplify : Lib.folding.simplify (symbolsEq x y) = symbolsEq x y := by
    change (if (symbolsEq x y).isGround then .lit ((symbolsEq x y).eval default)
      else symbolsEq x y) = _
    exact if_neg Bool.false_ne_true
  rw [Decided, hsimplify, hsimplify]
  rintro (h | h) <;> cases h

/-- A null pointer is written at `x`, then a word at `y`: a read at `z` raises an exception. -/
theorem exists_not_readsLast : ∃ c, initRef pointers boundedStart = .ok () c ∧
    ¬ReadsLast .folding c (pointerAt "z" (by decide))
      [setNull "x" (by decide), setLoaded "y" (by decide)] := by
  obtain ⟨c, g, hc, hΓ, hfield⟩ := exists_initRef_pointers
  refine ⟨c, hc, ?_⟩
  rintro ⟨⟨-, -, d, m, e, -, hd, hm, -⟩, -⟩
  obtain ⟨_, c₁, h₁, hd⟩ := Py.bind_eq_ok.mp hd
  obtain ⟨_, c₂, h₂, hd⟩ := Py.bind_eq_ok.mp hd
  cases hd
  obtain ⟨c₁', h₁', hΓ₁, hfield₁⟩ := (setNull "x" (by decide)).write_eq hΓ hfield
  cases h₁.symm.trans h₁'
  obtain ⟨c₂', h₂', hΓ₂, hfield₂⟩ :=
    (setLoaded "y" (by decide)).write_eq hΓ₁ ((hfield₁ _ _).trans (if_pos ⟨rfl, rfl⟩))
  cases h₂.symm.trans h₂'
  have happly := (TypedPath.read_eq_ok _ hΓ₂ ((hfield₂ _ _).trans (if_pos ⟨rfl, rfl⟩))).mp ⟨e, hm⟩
  -- The first write makes the object a pointer, which the second one raises the exception for.
  obtain ⟨old, hold, hm⟩ := bind_eq_ok_iff.mp (show
    ((Obj.update (.decl g 1 (.bv 64)) [.ofTerm (symbol "x")]
      (.ptr (.raw null (.pointer (.int 64))))).apply .folding [.ofTerm (symbol "z")] >>= fun old =>
        If .folding (symbolsEq "y" "z") (.expr (.ofTerm (symbol "v"))) old) = .ok m from happly)
  obtain ⟨first, -, hold⟩ := bind_eq_ok_iff.mp (show
    ((Obj.decl g 1 (.bv 64)).apply .folding [.ofTerm (symbol "z")] >>= fun first =>
      If .folding (symbolsEq "x" "z") (.ptr (.raw null (.pointer (.int 64)))) first) =
        .ok old from hold)
  obtain ⟨r, rfl⟩ := exists_ptr_of_If (not_decided_symbolsEq "x" "z") hold
  rw [If_term_ptr (not_decided_symbolsEq "y" "z")] at hm
  cases hm

end L4Thread.Irpy
