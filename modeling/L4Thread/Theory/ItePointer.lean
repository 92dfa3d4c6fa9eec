import L4Thread.Theory.ReadOverWrite

/-!
# Conditional pointers

A conditional pointer is a tree of conditions over pointers. A read through it reads all of them and
joins what they give, a write writes to all of them. `getelementptr` rebuilds the tree from a stack.
-/

namespace L4Thread.Irpy

open Smt

variable {P : Lib} {σ : Env}

/-! ## The stack of `getelementptr` -/

namespace Pointer

/-- A pointer that is visited puts its result on top. -/
theorem getelementptrLoop_visit (idxs : List Value) (type : Ty) (p : Pointer)
    (stack : List IteEntry) (result : List Pointer) :
    getelementptrLoop P idxs type (.visit p :: stack) result =
      getelementptr P idxs type p >>= fun q =>
        getelementptrLoop P idxs type stack (q :: result) := by
  induction p generalizing stack result with
  | base ref geps t =>
    rw [getelementptrLoop, getelementptr]
    split <;> rfl
  | raw name t =>
    rw [getelementptrLoop, getelementptr]
    rfl
  | ite cond p1 p2 name t ih1 ih2 =>
    rw [getelementptrLoop, ih2, getelementptr, bind_assoc]
    refine congrArg _ (funext fun q2 => ?_)
    rw [ih1, bind_assoc]
    refine congrArg _ (funext fun q1 => ?_)
    rw [getelementptrLoop]

theorem getelementptrStack_eq (idxs : List Value) (type : Ty) (p : Pointer) :
    p.getelementptrStack P idxs type = p.getelementptr P idxs type := by
  rw [getelementptrStack, getelementptrLoop_visit, bind_assoc]
  refine (congrArg _ (funext fun q => ?_)).trans (bind_pure _)
  rw [getelementptrLoop]
  rfl

end Pointer

/-! ## Reads of the same location -/

/-- A condition that is not decided may put functions and other objects together: the other objects
are lost. -/
inductive Blurs (P : Lib) (σ : Env) (m a : Obj) : Prop
  | same (hf : m.isFunction = a.isFunction) (h : m.meaning P σ = a.meaning P σ)
  | lost (hm : m.isFunction = true) (h : m.meaning P σ = .other) (ha : a.isFunction = false)

/-- Two objects that mean the same, as far as none of them is lost. -/
inductive Similar (P : Lib) (σ : Env) (a b : Obj) : Prop
  | same (hf : a.isFunction = b.isFunction) (h : a.meaning P σ = b.meaning P σ)
  | left (ha : a.isFunction = true) (h : a.meaning P σ = .other) (hb : b.isFunction = false)
  | right (ha : a.isFunction = false) (hb : b.isFunction = true) (h : b.meaning P σ = .other)

variable {cond cond' : Term .bool} {a a' b b' m m' : Obj}

theorem Blurs.refl (a : Obj) : Blurs P σ a a := .same rfl rfl

theorem Similar.blurs (h : Similar P σ a a') (hm : Blurs P σ m a) (hm' : Blurs P σ m' a') :
    Similar P σ m m' := by
  cases h with
  | same hf heq =>
    cases hm with
    | same hfm hm =>
      cases hm' with
      | same hfm' hm' =>
        exact .same (hfm.trans (hf.trans hfm'.symm)) (hm.trans (heq.trans hm'.symm))
      | lost hfm' hm' ha' => exact .right (hfm.trans (hf.trans ha')) hfm' hm'
    | lost hfm hm ha =>
      cases hm' with
      | same hfm' hm' => exact .left hfm hm (hfm'.trans (hf.symm.trans ha))
      | lost hfm' hm' ha' => exact .same (hfm.trans hfm'.symm) (hm.trans hm'.symm)
  | left hfa ha hfb =>
    cases hm with
    | lost hfm hm hno => rw [hfa] at hno; cases hno
    | same hfm hm =>
      cases hm' with
      | same hfm' hm' => exact .left (hfm.trans hfa) (hm.trans ha) (hfm'.trans hfb)
      | lost hfm' hm' _ =>
        exact .same ((hfm.trans hfa).trans hfm'.symm) ((hm.trans ha).trans hm'.symm)
  | right hfa hfb hb =>
    cases hm' with
    | lost hfm' hm' hno => rw [hfb] at hno; cases hno
    | same hfm' hm' =>
      cases hm with
      | same hfm hm => exact .right (hfm.trans hfa) (hfm'.trans hfb) (hm'.trans hb)
      | lost hfm hm _ =>
        exact .same (hfm.trans (hfm'.trans hfb).symm) (hm.trans (hm'.trans hb).symm)

theorem blurs_asFunction (a : Obj) : Blurs P σ a.asFunction a := by
  rw [Obj.asFunction]
  split
  · exact .refl a
  · next hf => exact .lost rfl rfl (Bool.eq_false_iff.mpr hf)

theorem isFunction_asFunction (a : Obj) : a.asFunction.isFunction = true := by
  rw [Obj.asFunction]
  split
  · next hf => exact hf
  · rfl

theorem Blurs.trans_asFunction (hf : m.isFunction = true)
    (h : m.meaning P σ = a.asFunction.meaning P σ) : Blurs P σ m a := by
  cases blurs_asFunction (P := P) (σ := σ) a with
  | same hfa ha => exact .same (hf.trans ((isFunction_asFunction a).symm.trans hfa)) (h.trans ha)
  | lost _ ha hno => exact .lost hf (h.trans ha) hno

theorem eq_of_If_of_decided (hdec : Decided P cond) (h : If P cond a b = .ok m) (σ : Env) :
    m = if cond.eval σ = true then a else b := by
  rcases hdec with ht | hf
  · rw [eval_of_simplify_isLit ht σ, if_pos rfl]
    by_cases hab : ∃ u v, a = .expr u ∧ b = .expr v
    · obtain ⟨u, v, rfl, rfl⟩ := hab
      rw [If, ifValue, if_pos ht] at h
      exact (Except.ok.inj h).symm
    · rw [If_eq_of_not_terms (not_terms_of_not_exists hab), if_pos ht] at h
      exact (Except.ok.inj h).symm
  · have hne : ¬(P.simplify (P.simplify cond)).isLit true = true := fun ht => by
      have hT := eval_of_simplify_isLit ht default
      rw [eval_of_simplify_isLit hf default] at hT
      cases hT
    rw [eval_of_simplify_isLit hf σ, if_neg Bool.false_ne_true]
    by_cases hab : ∃ u v, a = .expr u ∧ b = .expr v
    · obtain ⟨u, v, rfl, rfl⟩ := hab
      rw [If, ifValue, if_neg hne, if_pos hf] at h
      exact (Except.ok.inj h).symm
    · rw [If_eq_of_not_terms (not_terms_of_not_exists hab), if_neg hne, if_pos hf] at h
      exact (Except.ok.inj h).symm

theorem isFunction_eq_of_definitelyEqual (h : definitelyEqual P a b = .ok true) :
    a.isFunction = b.isFunction := by
  have his : P.is a b = true → a.isFunction = b.isFunction := fun h => by rw [P.eq_of_is h]
  cases a with
  | expr | ptr | bitcast =>
    cases b with
    | expr | ptr | bitcast => rfl
    | _ => exact his (Except.ok.inj h)
  | _ => exact his (Except.ok.inj h)

/-- A pointer in front of another object. -/
theorem picks_of_ifDistinct_ptr {p : Pointer}
    (h : ifDistinct P (P.simplify cond) (.ptr p) b = .ok m) :
    Picks P cond m (.ptr p) b ∧ m.isFunction = false ∧ b.isFunction = false := by
  obtain ⟨r, hr, hm⟩ := bind_eq_ok_iff.mp h
  cases hm
  cases b with
  | ptr q =>
    obtain ⟨r', hr', hpick⟩ := exists_iteObj_ptr P cond p q
    cases hr.symm.trans hr'
    exact ⟨hpick, rfl, rfl⟩
  | expr v =>
    obtain ⟨s, t⟩ := v
    obtain rfl : s = .bv 64 := sort_of_iteObj hr
    obtain ⟨r', hr', hpick⟩ := exists_iteObj_word P cond p t
    cases hr.symm.trans hr'
    exact ⟨hpick, rfl, rfl⟩
  | _ => cases hr

/-- What `util.If` returns is what it selects, if that is not lost. -/
theorem blurs_If (h : If P cond a b = .ok m) (σ : Env) :
    Blurs P σ m (if cond.eval σ = true then a else b) := by
  by_cases hdec : Decided P cond
  · rw [← eq_of_If_of_decided hdec h σ]
    exact .refl m
  by_cases hab : ∃ u v, a = .expr u ∧ b = .expr v
  · obtain ⟨u, v, rfl, rfl⟩ := hab
    obtain ⟨m', hm', hpick⟩ := (exists_If_terms_iff hdec).mpr
      (sort_eq_of_If (isLit_of_not_decided hdec) h)
    cases h.symm.trans hm'
    obtain ⟨w, -, hw⟩ := bind_eq_ok_iff.mp h
    cases hw
    refine .same ?_ ((hpick σ).trans ?_) <;> split <;> rfl
  rw [If_eq_of_not_terms (not_terms_of_not_exists hab), isLit_of_not_decided hdec,
    isLit_of_not_decided hdec] at h
  simp only [Bool.false_eq_true, if_false] at h
  obtain ⟨e, he, h⟩ := bind_eq_ok_iff.mp h
  cases e with
  | true =>
    cases h
    split
    · exact .refl a
    · exact .same (isFunction_eq_of_definitelyEqual he) (meaning_eq_of_definitelyEqual he)
  | false =>
    by_cases ha : ∃ p, a = .ptr p
    · obtain ⟨p, rfl⟩ := ha
      obtain ⟨hpick, hm, hb⟩ := picks_of_ifDistinct_ptr h
      refine .same (hm.trans ?_) ((hpick σ).trans ?_)
      · split
        · rfl
        · exact hb.symm
      · split <;> rfl
    · obtain ⟨-, rfl⟩ := ifDistinct_eq_lam (fun p hp => ha ⟨p, hp⟩) h
      have hm : (Obj.lam (P.simplify cond) a.asFunction b.asFunction).meaning P σ =
          if cond.eval σ = true then a.asFunction.meaning P σ else b.asFunction.meaning P σ := by
        rw [Obj.meaning, P.eval_simplify]
      refine .trans_asFunction rfl (hm.trans ?_)
      split <;> rfl

/-- `util.If` of objects that mean the same. -/
theorem Similar.If (hc : cond.eval σ = cond'.eval σ) (ha : Similar P σ a a')
    (hb : Similar P σ b b') (h : Irpy.If P cond a b = .ok m)
    (h' : Irpy.If P cond' a' b' = .ok m') : Similar P σ m m' := by
  have hm := blurs_If h σ
  have hm' := blurs_If h' σ
  rw [← hc] at hm'
  refine Similar.blurs ?_ hm hm'
  split
  · exact ha
  · exact hb

/-- The function of a field: a symbol behind writes and merges. -/
inductive MemFn : Obj → Prop
  | decl {f : String} {n : Nat} {s : Srt} : MemFn (.decl f n s)
  | update {old value : Obj} {args : List Value} (h : MemFn old) : MemFn (.update old args value)
  | lam {cond : Term .bool} {a b : Obj} (ha : MemFn a) (hb : MemFn b) : MemFn (.lam cond a b)

variable {args args' margs : List Value} {f : Obj}

theorem argTerms_cons {v : Value} {xs : Term .args} (h : argTerms (v :: args) = .ok xs) :
    ∃ t ys, v = ⟨.bv 64, t⟩ ∧ argTerms args = .ok ys ∧ xs = .cons t ys := by
  rw [argTerms.eq_def] at h
  split at h
  · cases ‹v :: args = []›
  · next t vs heq =>
    obtain ⟨rfl, rfl⟩ := List.cons.inj heq
    obtain ⟨ys, hys, h⟩ := bind_eq_ok_iff.mp h
    cases h
    exact ⟨t, ys, rfl, hys, rfl⟩
  · cases h

theorem eval_argTerms {xs xs' : Term .args}
    (hargs : args.map (Value.val σ) = args'.map (Value.val σ)) (h : argTerms args = .ok xs)
    (h' : argTerms args' = .ok xs') : xs.eval σ = xs'.eval σ := by
  induction args generalizing args' xs xs' with
  | nil =>
    cases args' with
    | nil => rw [Except.ok.inj (h.symm.trans h')]
    | cons => cases hargs
  | cons v args ih =>
    cases args' with
    | nil => cases hargs
    | cons v' args' =>
      obtain ⟨hv, hrest⟩ := List.cons.inj hargs
      obtain ⟨t, ys, rfl, hys, rfl⟩ := argTerms_cons h
      obtain ⟨t', ys', rfl, hys', rfl⟩ := argTerms_cons h'
      have ht : t.eval σ = t'.eval σ := eq_of_heq (Sigma.mk.inj hv).2
      rw [Term.eval, Term.eval, ht, ih hrest hys hys']

theorem indicesEq_cons {a b : Value} {as bs : List Value} {cond : Term .bool}
    (h : indicesEq (a :: as) (b :: bs) = .ok cond) :
    ∃ rest, indicesEq as bs = .ok rest ∧
      (cond.eval σ = true ↔ a.val σ = b.val σ ∧ rest.eval σ = true) := by
  obtain ⟨s, t⟩ := a
  obtain ⟨s', t'⟩ := b
  rw [indicesEq] at h
  split at h
  · next hs =>
    obtain rfl : s' = s := hs
    obtain ⟨rest, hrest, h⟩ := bind_eq_ok_iff.mp h
    cases h
    refine ⟨rest, hrest, ?_⟩
    rw [Term.eval, Bool.and_eq_true, Term.eval_eq_iff]
    refine and_congr_left fun _ => ?_
    constructor
    · exact fun h => congrArg (Sigma.mk s') h
    · exact fun h => eq_of_heq (Sigma.mk.inj h).2
  · cases h

/-- The equation of the indices depends on their values. -/
theorem eval_indicesEq {cond cond' : Term .bool}
    (hargs : args.map (Value.val σ) = args'.map (Value.val σ)) (h : indicesEq margs args = .ok cond)
    (h' : indicesEq margs args' = .ok cond') : cond.eval σ = cond'.eval σ := by
  induction margs generalizing args args' cond cond' with
  | nil =>
    rw [indicesEq.eq_def] at h h'
    rw [← Except.ok.inj h, ← Except.ok.inj h']
  | cons m margs ih =>
    cases args with
    | nil =>
      cases args' with
      | nil => rw [Except.ok.inj (h.symm.trans h')]
      | cons => cases hargs
    | cons v args =>
      cases args' with
      | nil => cases hargs
      | cons v' args' =>
        obtain ⟨hv, hargs⟩ := List.cons.inj hargs
        obtain ⟨rest, hrest, heval⟩ := indicesEq_cons (σ := σ) h
        obtain ⟨rest', hrest', heval'⟩ := indicesEq_cons (σ := σ) h'
        rw [Bool.eq_iff_iff, heval, heval', hv, ih hargs hrest hrest']

/-- A call depends on the values of the indices, as far as nothing is lost. -/
theorem similar_apply (hf : MemFn f) (hargs : args.map (Value.val σ) = args'.map (Value.val σ))
    (h : f.apply P args = .ok m) (h' : f.apply P args' = .ok m') : Similar P σ m m' := by
  induction hf generalizing m m' with
  | @decl f n s =>
    rw [Obj.apply] at h h'
    split at h
    · split at h'
      · obtain ⟨xs, hxs, h⟩ := bind_eq_ok_iff.mp h
        obtain ⟨xs', hxs', h'⟩ := bind_eq_ok_iff.mp h'
        cases h
        cases h'
        refine .same rfl ?_
        rw [Obj.meaning, Obj.meaning, Value.val, Value.val, Term.eval, Term.eval,
          eval_argTerms hargs hxs hxs']
      · cases h'
    · cases h
  | update hold ih =>
    obtain ⟨cond, hcond, h⟩ := bind_eq_ok_iff.mp h
    obtain ⟨old, hold, h⟩ := bind_eq_ok_iff.mp h
    obtain ⟨cond', hcond', h'⟩ := bind_eq_ok_iff.mp h'
    obtain ⟨old', hold', h'⟩ := bind_eq_ok_iff.mp h'
    exact Similar.If (eval_indicesEq hargs hcond hcond') (.same rfl rfl) (ih hold hold') h h'
  | lam ha hb iha ihb =>
    obtain ⟨x, y, hx, hy, h⟩ := apply_lam_eq_ok.mp h
    obtain ⟨x', y', hx', hy', h'⟩ := apply_lam_eq_ok.mp h'
    exact Similar.If rfl (iha hx hx') (ihb hy hy') h h'

/-! ## Classes of objects -/

/-- `util.If` puts any two objects of the class together, and what it returns is of the class. -/
def JoinClosed (P : Lib) (O : Set Obj) : Prop :=
  ∀ cond, ∀ a ∈ O, ∀ b ∈ O, ∃ m ∈ O, If P cond a b = .ok m ∧ Picks P cond m a b

/-- The terms of a sort. -/
theorem joinClosed_terms (P : Lib) (s : Srt) : JoinClosed P {o | ∃ t, o = .expr ⟨s, t⟩} := by
  rintro cond _ ⟨t, rfl⟩ _ ⟨t', rfl⟩
  obtain ⟨w, hw, heval⟩ := exists_ifValue P cond t t'
  refine ⟨.expr ⟨s, w⟩, ⟨w, rfl⟩, by rw [If, hw]; rfl, fun σ => ?_⟩
  rw [Obj.meaning, Value.val, heval σ]
  split <;> rfl

/-- The functions. -/
theorem joinClosed_functions (P : Lib) : JoinClosed P {o | o.isFunction = true} := by
  intro cond a ha b hb
  have hpick : ∃ m, If P cond a b = .ok m ∧ Picks P cond m a b := by
    refine exists_If_iff_decided_or.mpr (.inr ?_)
    have hfun : (a.isFunction ∨ b.isFunction) ∧ (a.isFunction ∨ ∀ σ, cond.eval σ = false) ∧
        (b.isFunction ∨ ∀ σ, cond.eval σ = true) := ⟨.inl ha, .inl ha, .inl hb⟩
    cases a with
    | expr | ptr | bitcast => cases ha
    | _ => exact hfun
  obtain ⟨m, hm, hpick⟩ := hpick
  refine ⟨m, ?_, hm, hpick⟩
  cases blurs_If hm default with
  | same hf _ =>
    refine hf.trans ?_
    split
    · exact ha
    · exact hb
  | lost hf => exact hf

/-- Pointers that can be compared, and what is made of them. -/
theorem joinClosed_pointers {B : Set Pointer}
    (hB : ∀ p ∈ B, ∀ q ∈ B, ∃ e, p.eq P q = .ok e) :
    JoinClosed P {o | ∃ p : Pointer, o = .ptr p ∧
      (p ∈ B ∨ ∃ c p1 p2 n t, p = .ite c p1 p2 n t)} := by
  have heq : ∀ p q : Pointer, (p ∈ B ∨ ∃ c p1 p2 n t, p = .ite c p1 p2 n t) →
      (q ∈ B ∨ ∃ c p1 p2 n t, q = .ite c p1 p2 n t) → ∃ e, p.eq P q = .ok e := by
    rintro p q (hp | ⟨c, p1, p2, n, t, rfl⟩) hq
    · rcases hq with hq | ⟨c, p1, p2, n, t, rfl⟩
      · exact hB p hp q hq
      · cases p <;> exact ⟨_, rfl⟩
    · exact ⟨_, rfl⟩
  rintro cond _ ⟨p, rfl, hp⟩ _ ⟨q, rfl, hq⟩
  obtain ⟨e, he⟩ := heq p q hp hq
  have hjoin : Joins P cond (.ptr p) (.ptr q) := by
    rw [Joins, definitelyEqual]
    split
    · exact ⟨_, rfl⟩
    · exact ⟨e, he⟩
  obtain ⟨m, hm, hpick⟩ := exists_If_iff_decided_or.mpr (.inr hjoin)
  refine ⟨m, ?_, hm, hpick⟩
  by_cases hdec : Decided P cond
  · rw [eq_of_If_of_decided hdec hm default]
    split
    · exact ⟨p, rfl, hp⟩
    · exact ⟨q, rfl, hq⟩
  · rw [If_eq_of_not_terms (not_terms_ptr p), isLit_of_not_decided hdec,
      isLit_of_not_decided hdec] at hm
    simp only [Bool.false_eq_true, if_false] at hm
    obtain ⟨e', -, hm⟩ := bind_eq_ok_iff.mp hm
    cases e' with
    | true =>
      cases hm
      exact ⟨p, rfl, hp⟩
    | false =>
      obtain ⟨r, hr, hm⟩ := bind_eq_ok_iff.mp hm
      cases hm
      obtain ⟨name, -, hr⟩ := bind_eq_ok_iff.mp hr
      cases hr
      exact ⟨_, rfl, .inr ⟨_, _, _, _, _, rfl⟩⟩

theorem exists_eval_var (name : String) (v : Bool) :
    ∃ σ : Env, (Term.var name .bool).eval σ = v :=
  ⟨⟨fun _ s => s.casesOn (motive := Srt.Val) v (fun _ => default) default, fun _ _ _ => default⟩,
    by rw [Term.eval]⟩

theorem not_decided_of_eval (htrue : ∃ σ, cond.eval σ = true) (hfalse : ∃ σ, cond.eval σ = false) :
    ¬Decided P cond := by
  rintro (h | h)
  · obtain ⟨σ, hσ⟩ := hfalse
    rw [eval_of_simplify_isLit h σ] at hσ
    cases hσ
  · obtain ⟨σ, hσ⟩ := htrue
    rw [eval_of_simplify_isLit h σ] at hσ
    cases hσ

/-- Nothing is known of a symbol. -/
theorem not_decided_var (P : Lib) (name : String) : ¬Decided P (.var name .bool) :=
  not_decided_of_eval (exists_eval_var name true) (exists_eval_var name false)

theorem Joins.isFunction_eq {name : String} (h : Joins P (.var name .bool) a b) :
    a.isFunction = b.isFunction := by
  have hfun : (a.isFunction ∨ ∀ σ, (Term.var name .bool).eval σ = false) ∧
      (b.isFunction ∨ ∀ σ, (Term.var name .bool).eval σ = true) →
      a.isFunction = b.isFunction := by
    rintro ⟨ha, hb⟩
    obtain ⟨σ, hσ⟩ := exists_eval_var name true
    obtain ⟨τ, hτ⟩ := exists_eval_var name false
    have ha := ha.resolve_right fun h => by cases hσ.symm.trans (h σ)
    have hb := hb.resolve_right fun h => by cases hτ.symm.trans (h τ)
    exact ha.trans hb.symm
  cases a with
  | expr | bitcast =>
    cases b with
    | expr | bitcast => rfl
    | _ => exact hfun h.2
  | ptr =>
    cases b with
    | expr | ptr => rfl
    | _ => exact h.elim
  | _ => exact hfun h.2

/-- A class has functions only or none. -/
theorem JoinClosed.isFunction_eq {O : Set Obj} (h : JoinClosed P O) (ha : a ∈ O) (hb : b ∈ O) :
    a.isFunction = b.isFunction := by
  obtain ⟨m, -, hm⟩ := h (.var "b" .bool) a ha b hb
  exact Joins.isFunction_eq ((exists_If_iff (not_decided_var P "b")).mp ⟨m, hm⟩)

/-! ## Locations -/

variable {Γ : List (Term .bool)} {c d e : Ctx} {t : Ty} {depth : Nat}
  {path path' idxs idxs' : List Value} {fields fields' : List Nat} {R : String → Ty} {O : Set Obj}
  {G : String → List Nat → Prop}

/-- The fields and the indices are those of the path. -/
theorem PathTo.unique (h : PathTo P Γ t depth path fields idxs)
    (h' : PathTo P Γ t depth path fields' idxs') : fields = fields' ∧ idxs = idxs' := by
  induction h generalizing fields' idxs' with
  | int =>
    cases h'
    exact ⟨rfl, rfl⟩
  | stored =>
    cases h'
    exact ⟨rfl, rfl⟩
  | pointer _ _ ih =>
    cases h' with
    | pointer _ h' =>
      obtain ⟨rfl, rfl⟩ := ih h'
      exact ⟨rfl, rfl⟩
  | array _ _ _ ih =>
    cases h' with
    | array _ _ h' =>
      obtain ⟨rfl, rfl⟩ := ih h'
      exact ⟨rfl, rfl⟩
  | struct hv ht _ ih =>
    cases h' with
    | struct hv' ht' h' =>
      cases hv.symm.trans hv'
      cases ht.symm.trans ht'
      obtain ⟨rfl, rfl⟩ := ih h'
      exact ⟨rfl, rfl⟩

/-- A field has an index for each array on the way. -/
theorem PathTo.length_eq (h : PathTo P Γ t depth path fields idxs)
    (h' : PathTo P Γ t depth path' fields idxs') : idxs.length = idxs'.length := by
  induction h generalizing path' idxs' with
  | int =>
    cases h'
    rfl
  | stored hdepth =>
    cases h' with
    | stored => rfl
    | pointer => exact absurd rfl hdepth
  | pointer _ _ ih =>
    cases h' with
    | stored hdepth => exact absurd rfl hdepth
    | pointer _ h' => rw [List.length_cons, List.length_cons, ih h']
  | array _ _ _ ih =>
    cases h' with
    | array _ _ h' => rw [List.length_cons, List.length_cons, ih h']
  | struct _ ht _ ih =>
    cases h' with
    | struct _ ht' h' =>
      cases ht.symm.trans ht'
      exact ih h'

namespace TypedPath

/-- The reference is the one of its name. -/
def Declared (R : String → Ty) (q : TypedPath P Γ) : Prop := q.ref.type = R q.ref.name

/-- The same location under an assignment. -/
def Same (σ : Env) (p q : TypedPath P Γ) : Prop :=
  p.ref.name = q.ref.name ∧ p.fields = q.fields ∧
    p.idxs.map (Value.val σ) = q.idxs.map (Value.val σ)

/-- What a read gives. -/
def content (q : TypedPath P Γ) (c : Ctx) : Except Exc Obj :=
  match c.field q.ref.name q.fields with
  | some f => f.apply P q.idxs
  | none => .error .key

/-- What a read means under an assignment. -/
def value (q : TypedPath P Γ) (σ : Env) (c : Ctx) : Meaning :=
  match q.content c with
  | .ok o => o.meaning P σ
  | .error _ => .other

variable {p q : TypedPath P Γ} {o : Obj}

theorem content_eq {f : Obj} (h : c.field q.ref.name q.fields = some f) :
    q.content c = f.apply P q.idxs := by
  rw [content, h]

theorem value_eq (h : q.content c = .ok o) (σ : Env) : q.value σ c = o.meaning P σ := by
  rw [value, h]

theorem content_congr (h : c.field q.ref.name q.fields = d.field q.ref.name q.fields) :
    q.content c = q.content d := by
  rw [content, h, content]

theorem value_congr (h : c.field q.ref.name q.fields = d.field q.ref.name q.fields) (σ : Env) :
    q.value σ c = q.value σ d := by
  rw [value, content_congr h, value]

theorem eq_of_path (href : p.ref = q.ref) (hpath : p.path = q.path) : p = q := by
  obtain ⟨ref, path, fields, idxs, h⟩ := p
  obtain ⟨ref', path', fields', idxs', h'⟩ := q
  obtain rfl : ref = ref' := href
  obtain rfl : path = path' := hpath
  obtain ⟨rfl, rfl⟩ := h.unique h'
  rfl

theorem field_of_fieldFunction {ref : Reference} {f : Obj}
    (h : fieldFunction ref fields c = .ok f d) : c.field ref.name fields = some f := by
  rw [Ctx.field]
  obtain ⟨c', c'', hget, h⟩ := Py.bind_eq_ok.mp h
  cases hget
  cases hr : c.references.lookup ref.name with
  | none =>
    rw [hr] at h
    cases h
  | some r =>
    rw [hr] at h
    dsimp only at h
    cases hf : r.lookup fields with
    | none =>
      rw [hf] at h
      cases h
    | some f' =>
      rw [hf] at h
      cases h
      exact hf

/-- Reads of a location give what the function of its field gives. -/
theorem exists_read_iff (hΓ : c.assertions = Γ) :
    (∃ e, q.ref.read P q.path c = .ok o e) ↔ q.content c = .ok o := by
  rw [content]
  cases hf : c.field q.ref.name q.fields with
  | some f => exact q.read_eq_ok hΓ hf
  | none =>
    refine iff_of_false (not_exists.mpr fun e he => ?_) (by intro h; cases h)
    subst hΓ
    rw [Reference.read, Py.bind_apply, q.typed.build] at he
    obtain ⟨_, c₁, haccess, he⟩ := Py.bind_eq_ok.mp he
    cases haccess
    obtain ⟨f, c₂, hfun, -⟩ := Py.bind_eq_ok.mp he
    have hsome := field_of_fieldFunction hfun
    cases hf.symm.trans hsome

theorem read_of_content (hΓ : c.assertions = Γ) (h : q.content c = .ok o) :
    q.ref.read P q.path c = .ok o { c with accessed := c.accessed.insert q.ref.name } := by
  rw [content] at h
  split at h
  · next f hf =>
    rw [q.read_eq hΓ hf, h]
    rfl
  · cases h

end TypedPath

/-! ## The memory of the arms -/

/-- The fields have functions, and what is in them is of the class. -/
structure Sound (P : Lib) (R : String → Ty) (Γ : List (Term .bool)) (O : Set Obj)
    (G : String → List Nat → Prop) (c : Ctx) : Prop where
  assertions : c.assertions = Γ
  memFn {name : String} {fields : List Nat} : G name fields →
    ∃ f, c.field name fields = some f ∧ MemFn f
  content (q : TypedPath P Γ) : q.Declared R → G q.ref.name q.fields →
    ∃ o ∈ O, q.content c = .ok o

/-- The memory is the same. -/
structure SameMemory (c d : Ctx) : Prop where
  assertions : d.assertions = c.assertions
  field (name : String) (fields : List Nat) : d.field name fields = c.field name fields

theorem SameMemory.trans (h : SameMemory c d) (h' : SameMemory d e) : SameMemory c e :=
  ⟨h'.assertions.trans h.assertions, fun name fields =>
    (h'.field name fields).trans (h.field name fields)⟩

theorem SameMemory.value_eq (h : SameMemory c d) (q : TypedPath P Γ) (σ : Env) :
    q.value σ d = q.value σ c := TypedPath.value_congr (h.field ..) σ

namespace Sound

variable {p q : TypedPath P Γ}

theorem of_sameMemory (h : Sound P R Γ O G c) (hcd : SameMemory c d) : Sound P R Γ O G d where
  assertions := hcd.assertions.trans h.assertions
  memFn hG := by
    rw [hcd.field]
    exact h.memFn hG
  content q hq hG := by
    rw [TypedPath.content_congr (hcd.field ..)]
    exact h.content q hq hG

/-- The same location has the same value. -/
theorem value_eq (h : Sound P R Γ O G c) (hO : JoinClosed P O) (hp : p.Declared R)
    (hq : q.Declared R) (hG : G p.ref.name p.fields) (hsame : p.Same σ q) :
    p.value σ c = q.value σ c := by
  obtain ⟨hname, hfields, hidxs⟩ := hsame
  obtain ⟨o, ho, hcontent⟩ := h.content p hp hG
  obtain ⟨o', ho', hcontent'⟩ := h.content q hq (hname ▸ hfields ▸ hG)
  rw [TypedPath.value_eq hcontent, TypedPath.value_eq hcontent']
  obtain ⟨f, hf, hmem⟩ := h.memFn hG
  rw [TypedPath.content_eq hf] at hcontent
  rw [TypedPath.content_eq (hname ▸ hfields ▸ hf)] at hcontent'
  have hfun := hO.isFunction_eq ho ho'
  cases similar_apply hmem hidxs hcontent hcontent' with
  | same _ heq => exact heq
  | left ha _ hb =>
    rw [ha, hb] at hfun
    cases hfun
  | right ha hb _ =>
    rw [ha, hb] at hfun
    cases hfun

end Sound

/-- The location that is selected has the value, and no other one is changed. -/
structure Writes (R : String → Ty) (G : String → List Nat → Prop) (c d : Ctx)
    (loc : Env → TypedPath P Γ) (val : Env → Meaning) : Prop where
  hit {q : TypedPath P Γ} {σ : Env} : q.Declared R → G q.ref.name q.fields → (loc σ).Same σ q →
    q.value σ d = val σ
  miss {q : TypedPath P Γ} {σ : Env} : q.Declared R → G q.ref.name q.fields →
    ¬(loc σ).Same σ q → q.value σ d = q.value σ c
  field {name : String} {fields : List Nat} : ¬G name fields →
    d.field name fields = c.field name fields

namespace Sound

variable {p q : TypedPath P Γ} {w : Obj}

/-- A write to a location. -/
theorem write (h : Sound P R Γ O G c) (hO : JoinClosed P O) (hp : p.Declared R)
    (hG : G p.ref.name p.fields) (hw : w ∈ O) :
    ∃ d, p.ref.write P p.path w c = .ok () d ∧ Sound P R Γ O G d ∧
      Writes R G c d (fun _ => p) fun σ => w.meaning P σ := by
  obtain ⟨f, hf, hmem⟩ := h.memFn hG
  obtain ⟨d, hd, hΓ, hfield⟩ := Write.write_eq (⟨p, w⟩ : Write P Γ) h.assertions hf
  dsimp only at hd hfield
  -- What is read at a location of the field.
  have hread : ∀ q : TypedPath P Γ, q.Declared R → q.ref.name = p.ref.name →
      q.fields = p.fields → ∃ m ∈ O, q.content d = .ok m ∧
        ∀ σ, (p.Same σ q → q.value σ d = w.meaning P σ) ∧
          (¬p.Same σ q → q.value σ d = q.value σ c) := by
    intro q hq hname hfields
    obtain ⟨old, hold, hcontent⟩ := h.content q hq (hname.symm ▸ hfields.symm ▸ hG)
    have hold' := hcontent
    rw [TypedPath.content_eq (hname ▸ hfields ▸ hf)] at hold'
    have hlen : p.idxs.length = q.idxs.length := by
      have htype : p.ref.type = q.ref.type := by
        rw [show p.ref.type = _ from hp, show q.ref.type = _ from hq, hname]
      have htyped := q.typed
      rw [← htype, hfields] at htyped
      exact p.typed.length_eq htyped
    obtain ⟨cond, hcond, heval⟩ := exists_indicesEq hlen p.typed.sort_eq q.typed.sort_eq
    obtain ⟨m, hm, hif, hpick⟩ := hO cond w hw old hold
    have hnew : q.content d = .ok m := by
      rw [TypedPath.content_eq ((hfield _ _).trans (if_pos ⟨hname, hfields⟩)), Obj.apply, hcond]
      exact (congrArg (· >>= fun old => If P cond w old) hold').trans hif
    refine ⟨m, hm, hnew, fun σ => ⟨fun hsame => ?_, fun hne => ?_⟩⟩
    · rw [TypedPath.value_eq hnew, hpick σ, if_pos ((heval σ).mpr hsame.2.2)]
    · rw [TypedPath.value_eq hnew, hpick σ, TypedPath.value_eq hcontent, if_neg]
      exact fun hc => hne ⟨hname.symm, hfields.symm, (heval σ).mp hc⟩
  have hother : ∀ q : TypedPath P Γ, ¬(q.ref.name = p.ref.name ∧ q.fields = p.fields) →
      d.field q.ref.name q.fields = c.field q.ref.name q.fields := by
    intro q hne
    rw [hfield, if_neg hne]
  refine ⟨d, hd, ⟨hΓ, fun {name fields} hG' => ?_, fun q hq hG' => ?_⟩,
    ⟨fun {q σ} hq hG' hsame => ?_, fun {q σ} hq hG' hne => ?_, fun {name fields} hG' => ?_⟩⟩
  · rw [hfield]
    split
    · exact ⟨_, rfl, .update hmem⟩
    · exact h.memFn hG'
  · by_cases hsame : q.ref.name = p.ref.name ∧ q.fields = p.fields
    · obtain ⟨m, hm, hnew, -⟩ := hread q hq hsame.1 hsame.2
      exact ⟨m, hm, hnew⟩
    · rw [TypedPath.content_congr (hother q hsame)]
      exact h.content q hq hG'
  · obtain ⟨-, -, -, hval⟩ := hread q hq hsame.1.symm hsame.2.1.symm
    exact (hval σ).1 hsame
  · by_cases hsame : q.ref.name = p.ref.name ∧ q.fields = p.fields
    · obtain ⟨-, -, -, hval⟩ := hread q hq hsame.1 hsame.2
      exact (hval σ).2 hne
    · exact TypedPath.value_congr (hother q hsame) σ
  · rw [hfield, if_neg]
    rintro ⟨rfl, rfl⟩
    exact hG' hG

end Sound

theorem TypedPath.Same.symm {p q : TypedPath P Γ} (h : p.Same σ q) : q.Same σ p :=
  ⟨h.1.symm, h.2.1.symm, h.2.2.symm⟩

theorem TypedPath.Same.trans {p q r : TypedPath P Γ} (h : p.Same σ q) (h' : q.Same σ r) :
    p.Same σ r :=
  ⟨h.1.trans h'.1, h.2.1.trans h'.2.1, h.2.2.trans h'.2.2⟩

/-! ## The tree of conditions -/

/-- The pointer is a tree over locations of the fields, and selects a location. -/
inductive Armed (P : Lib) (R : String → Ty) (G : String → List Nat → Prop) :
    Pointer → (Env → TypedPath P Γ) → Prop
  | base {geps : Geps} {type : Ty} {q : TypedPath P Γ} (hpath : canonicalPath P geps = .ok q.path)
    (hq : q.Declared R) (hG : G q.ref.name q.fields) :
    Armed P R G (.base q.ref geps type) fun _ => q
  | ite {cond : Term .bool} {p1 p2 : Pointer} {name : Term (.bv 64)} {type : Ty}
    {l1 l2 : Env → TypedPath P Γ} (h1 : Armed P R G p1 l1) (h2 : Armed P R G p2 l2) :
    Armed P R G (.ite cond p1 p2 name type) fun σ => if cond.eval σ = true then l1 σ else l2 σ

variable {p : Pointer} {loc l1 l2 : Env → TypedPath P Γ} {v w1 w2 : Obj}

theorem Armed.declared (h : Armed P R G p loc) (σ : Env) : (loc σ).Declared R := by
  induction h with
  | base _ hq _ => exact hq
  | ite _ _ ih1 ih2 =>
    dsimp only
    split
    · exact ih1
    · exact ih2

theorem Armed.field (h : Armed P R G p loc) (σ : Env) : G (loc σ).ref.name (loc σ).fields := by
  induction h with
  | base _ _ hG => exact hG
  | ite _ _ ih1 ih2 =>
    dsimp only
    split
    · exact ih1
    · exact ih2

/-- A read gives what is at the location that is selected. -/
theorem Armed.read (h : Armed P R G p loc) (hO : JoinClosed P O) (hc : Sound P R Γ O G c) :
    ∃ m ∈ O, ∃ e, p.read P c = .ok m e ∧ SameMemory c e ∧
      ∀ σ, m.meaning P σ = (loc σ).value σ c := by
  induction h generalizing c with
  | @base geps type q hpath hq hG =>
    obtain ⟨o, ho, hcontent⟩ := hc.content q hq hG
    refine ⟨o, ho, { c with accessed := c.accessed.insert q.ref.name }, ?_,
      ⟨rfl, fun _ _ => rfl⟩, fun σ => (TypedPath.value_eq hcontent σ).symm⟩
    rw [Pointer.read, hpath, Py.ofExcept_ok_bind]
    exact TypedPath.read_of_content hc.assertions hcontent
  | @ite cond p1 p2 name type l1 l2 h1 h2 ih1 ih2 =>
    obtain ⟨a, ha, e1, hread1, hsame1, hval1⟩ := ih1 hc
    obtain ⟨b, hb, e2, hread2, hsame2, hval2⟩ := ih2 (hc.of_sameMemory hsame1)
    obtain ⟨m, hm, hif, hpick⟩ := hO cond a ha b hb
    refine ⟨m, hm, e2, ?_, hsame1.trans hsame2, fun σ => ?_⟩
    · rw [Pointer.read, Py.bind_apply, hread1]
      dsimp only
      rw [Py.bind_apply, hread2]
      dsimp only
      rw [hif]
      rfl
    · rw [hpick σ, hval1 σ, hval2 σ, hsame1.value_eq]
      dsimp only
      split <;> rfl

/-- The arms are written one after the other, each with its old value where it is not selected. -/
theorem Writes.ite {cond : Term .bool} (hO : JoinClosed P O) (hc : Sound P R Γ O G c)
    (hd : Sound P R Γ O G d) (h1 : Armed P R G p l1) {p2 : Pointer} (h2 : Armed P R G p2 l2)
    (hw1 : ∀ σ, w1.meaning P σ =
      if cond.eval σ = true then v.meaning P σ else (l1 σ).value σ c)
    (hw2 : ∀ σ, w2.meaning P σ =
      if (Term.not cond).eval σ = true then v.meaning P σ else (l2 σ).value σ d)
    (hcd : Writes R G c d l1 fun σ => w1.meaning P σ)
    (hde : Writes R G d e l2 fun σ => w2.meaning P σ) :
    Writes R G c e (fun σ => if cond.eval σ = true then l1 σ else l2 σ)
      fun σ => v.meaning P σ := by
  refine ⟨fun {q σ} hq hG hsame => ?_, fun {q σ} hq hG hne => ?_, fun hG =>
    (hde.field hG).trans (hcd.field hG)⟩
  · cases hcond : cond.eval σ with
    | true =>
      rw [hcond, if_pos rfl] at hsame
      have hfirst : q.value σ d = v.meaning P σ := by
        rw [hcd.hit hq hG hsame, hw1, hcond, if_pos rfl]
      by_cases halias : (l2 σ).Same σ q
      · rw [hde.hit hq hG halias, hw2, Term.eval_not, hcond, if_neg (by decide)]
        rw [hd.value_eq hO (h2.declared σ) hq (h2.field σ) halias]
        exact hfirst
      · rw [hde.miss hq hG halias]
        exact hfirst
    | false =>
      rw [hcond, if_neg Bool.false_ne_true] at hsame
      rw [hde.hit hq hG hsame, hw2, Term.eval_not, hcond, Bool.not_false,
        if_pos rfl]
  · cases hcond : cond.eval σ with
    | true =>
      rw [hcond, if_pos rfl] at hne
      have hfirst := hcd.miss hq hG hne
      by_cases halias : (l2 σ).Same σ q
      · rw [hde.hit hq hG halias, hw2, Term.eval_not, hcond, if_neg (by decide)]
        rw [hd.value_eq hO (h2.declared σ) hq (h2.field σ) halias]
        exact hfirst
      · rw [hde.miss hq hG halias]
        exact hfirst
    | false =>
      rw [hcond, if_neg Bool.false_ne_true] at hne
      rw [hde.miss hq hG hne]
      by_cases halias : (l1 σ).Same σ q
      · rw [hcd.hit hq hG halias, hw1, hcond, if_neg Bool.false_ne_true]
        exact hc.value_eq hO (h1.declared σ) hq (h1.field σ) halias
      · exact hcd.miss hq hG halias

/-- A write changes the location that is selected. -/
theorem Armed.write (h : Armed P R G p loc) (hO : JoinClosed P O) (hc : Sound P R Γ O G c)
    (hv : v ∈ O) : ∃ d, p.write P v c = .ok () d ∧ Sound P R Γ O G d ∧
      Writes R G c d loc fun σ => v.meaning P σ := by
  induction h generalizing c v with
  | @base geps type q hpath hq hG =>
    obtain ⟨d, hd, hsound, hwrites⟩ := hc.write hO hq hG hv
    refine ⟨d, ?_, hsound, hwrites⟩
    rw [Pointer.write, hpath, Py.ofExcept_ok_bind]
    exact hd
  | @ite cond p1 p2 name type l1 l2 h1 h2 ih1 ih2 =>
    obtain ⟨a, ha, e1, hread1, hsame1, hval1⟩ := h1.read hO hc
    obtain ⟨w1, hw1, hif1, hpick1⟩ := hO cond v hv a ha
    obtain ⟨d1, hwrite1, hd1, hwrites1⟩ := ih1 (hc.of_sameMemory hsame1) hw1
    obtain ⟨b, hb, e2, hread2, hsame2, hval2⟩ := h2.read hO hd1
    obtain ⟨w2, hw2, hif2, hpick2⟩ := hO (.not cond) v hv b hb
    obtain ⟨d, hwrite2, hd, hwrites2⟩ := ih2 (hd1.of_sameMemory hsame2) hw2
    refine ⟨d, ?_, hd, ?_⟩
    · rw [Pointer.write, Py.bind_apply, hread1]
      dsimp only
      rw [hif1, Py.ofExcept_ok_bind, Py.bind_apply, hwrite1]
      dsimp only
      rw [Py.bind_apply, hread2]
      dsimp only
      rw [hif2, Py.ofExcept_ok_bind, hwrite2]
    · have hfirst : Writes R G c d1 l1 fun σ => w1.meaning P σ :=
        ⟨hwrites1.hit, fun hq hG hne => (hwrites1.miss hq hG hne).trans (hsame1.value_eq ..),
          fun hG => (hwrites1.field hG).trans (hsame1.field ..)⟩
      have hsecond : Writes R G d1 d l2 fun σ => w2.meaning P σ :=
        ⟨hwrites2.hit, fun hq hG hne => (hwrites2.miss hq hG hne).trans (hsame2.value_eq ..),
          fun hG => (hwrites2.field hG).trans (hsame2.field ..)⟩
      refine Writes.ite hO hc hd1 h1 h2 (fun σ => ?_) (fun σ => ?_) hfirst hsecond
      · rw [hpick1 σ, hval1 σ]
      · rw [hpick2 σ, hval2 σ]

/-! ## The selected arm -/

theorem Ctx.mem_assertions_addAssumption {u v : Term .bool} :
    u ∈ (c.addAssumption v).assertions ↔ u = v ∨ u ∈ c.assertions := by
  rw [addAssumption, assertions, solverAdd, assertions]
  dsimp only
  cases c.solver with
  | nil => simp
  | cons scope rest => simp

namespace Pointer

/-- All arms are initialised. -/
def Inited : Pointer → Prop
  | base _ _ _ => True
  | raw _ _ => False
  | ite _ p1 p2 _ _ => p1.Inited ∧ p2.Inited

/-- The arm that is selected. -/
def selected (σ : Env) : Pointer → Pointer
  | ite cond p1 p2 _ _ => if cond.eval σ = true then p1.selected σ else p2.selected σ
  | p => p

/-- `getelementptr_base`, without the context. -/
def append (idxs : List Value) (type : Ty) : Pointer → Pointer
  | base ref geps _ => base ref (geps ++ [idxs]) type
  | p => p

/-- The pointer is to the location. -/
def At (P : Lib) (p : Pointer) (q : TypedPath P Γ) : Prop :=
  ∃ geps type, p = base q.ref geps type ∧ canonicalPath P geps = .ok q.path

/-- The same tree over arms with one more tuple of indices. -/
inductive Extended (idxs : List Value) (type : Ty) : Pointer → Pointer → Prop
  | base {ref : Reference} {geps : Geps} {t : Ty} :
    Extended idxs type (base ref geps t) (base ref (geps ++ [idxs]) type)
  | ite {cond : Term .bool} {p1 p2 q1 q2 : Pointer} {m n : Term (.bv 64)} {s t : Ty}
    (h1 : Extended idxs type p1 q1) (h2 : Extended idxs type p2 q2) :
    Extended idxs type (ite cond p1 p2 m s) (ite cond q1 q2 n t)

theorem Extended.selected_eq {idxs : List Value} {type : Ty} {p q : Pointer}
    (h : Extended idxs type p q) (σ : Env) :
    q.selected σ = (p.selected σ).append idxs type := by
  induction h with
  | base => rfl
  | ite _ _ ih1 ih2 =>
    rw [selected, selected, ih1, ih2]
    split <;> rfl

/-- `getelementptr` rebuilds the tree over the arms. -/
theorem getelementptr_inited {idxs : List Value} {type : Ty} (hidxs : idxs ≠ []) {p : Pointer}
    (hp : p.Inited) (c : Ctx) : ∃ q d, p.getelementptr P idxs type c = .ok q d ∧
      p.Extended idxs type q ∧ d.references = c.references ∧
      ∀ t ∈ c.assertions, t ∈ d.assertions := by
  induction p generalizing c with
  | base ref geps t =>
    refine ⟨base ref (geps ++ [idxs]) type, c.addAssumption
      (.not (.eq ((base ref (geps ++ [idxs]) type).name P) null)), ?_, .base, ?_, ?_⟩
    · rw [getelementptr, if_neg hidxs]
      rfl
    · rw [Ctx.toScope_addAssumption]
    · intro u hu
      rw [Ctx.mem_assertions_addAssumption]
      exact .inr hu
  | raw => exact hp.elim
  | ite cond p1 p2 name t ih1 ih2 =>
    obtain ⟨q2, d2, hq2, hext2, href2, hΓ2⟩ := ih2 hp.2 c
    obtain ⟨q1, d1, hq1, hext1, href1, hΓ1⟩ := ih1 hp.1 d2
    obtain ⟨n, hn, -⟩ := exists_ifValue P cond (q1.name P) (q2.name P)
    have hite : q1.iteObj P (.ptr q2) cond = .ok (.ite cond q1 q2 n q1.type) := by
      show (ifName P cond (q1.name P) ⟨_, q2.name P⟩ >>= _) = _
      rw [ifName, hn]
      rfl
    refine ⟨.ite cond q1 q2 n q1.type, d1, ?_, .ite hext1 hext2, href1.trans href2,
      fun t ht => hΓ1 t (hΓ2 t ht)⟩
    rw [getelementptr, Py.bind_apply, hq2]
    dsimp only
    rw [Py.bind_apply, hq1]
    dsimp only
    rw [hite]
    rfl

end Pointer

theorem Armed.selected_at (h : Armed P R G p loc) (σ : Env) : (p.selected σ).At P (loc σ) := by
  induction h with
  | base hpath _ _ => exact ⟨_, _, rfl, hpath⟩
  | ite _ _ ih1 ih2 =>
    rw [Pointer.selected]
    dsimp only
    split
    · exact ih1
    · exact ih2

theorem Pointer.At.unique {a : Pointer} {q q' : TypedPath P Γ} (h : a.At P q) (h' : a.At P q') :
    q = q' := by
  obtain ⟨geps, type, rfl, hpath⟩ := h
  obtain ⟨geps', type', heq, hpath'⟩ := h'
  obtain ⟨href, rfl, rfl⟩ := Pointer.base.inj heq
  exact TypedPath.eq_of_path href (Except.ok.inj (hpath.symm.trans hpath'))

/-! ## Conditional pointers as the pointers they select -/

/-- The field holds a function of memory, and what is read there is of the class. -/
structure Ctx.Uniform (P : Lib) (R : String → Ty) (O : Set Obj) (c : Ctx) (name : String)
    (fields : List Nat) : Prop where
  memFn : ∃ f, c.field name fields = some f ∧ MemFn f
  read (q : TypedPath P c.assertions) : q.Declared R → q.ref.name = name → q.fields = fields →
    ∃ o ∈ O, ∃ e, q.ref.read P q.path c = .ok o e

/-- The arms are within the bounds, and what is in their fields and the value can be put together
by `util.If`. -/
def ArmsFit (P : Lib) (R : String → Ty) (c : Ctx) (p : Pointer) (v : Obj) : Prop :=
  ∃ (O : Set Obj) (loc : Env → TypedPath P c.assertions), JoinClosed P O ∧ v ∈ O ∧
    Armed P R (c.Uniform P R O) p loc

/-- A conditional pointer behaves like the pointer it selects. -/
structure Behaves (P : Lib) (R : String → Ty) (c : Ctx) (p : Pointer) (v : Obj) : Prop where
  read : ∃ m e, p.read P c = .ok m e ∧ ∀ σ, ∃ o e', (p.selected σ).read P c = .ok o e' ∧
    m.meaning P σ = o.meaning P σ
  readBack : ∃ d m e, p.write P v c = .ok () d ∧ p.read P d = .ok m e ∧
    ∀ σ, m.meaning P σ = v.meaning P σ
  others {d : Ctx} : p.write P v c = .ok () d → ∀ σ (t q : TypedPath P c.assertions),
    (p.selected σ).At P t → q.Declared R → ∀ o e, q.ref.read P q.path c = .ok o e →
    ∃ o' e', q.ref.read P q.path d = .ok o' e' ∧
      (t.Same σ q → o'.meaning P σ = v.meaning P σ) ∧
      (¬t.Same σ q → o'.meaning P σ = o.meaning P σ)

theorem Ctx.Uniform.sound (c : Ctx) :
    Sound P R c.assertions O (c.Uniform P R O) c where
  assertions := rfl
  memFn h := h.memFn
  content q hq h := by
    obtain ⟨o, ho, hread⟩ := h.read q hq rfl rfl
    exact ⟨o, ho, (TypedPath.exists_read_iff rfl).mp hread⟩

theorem behaves_of_armsFit (h : ArmsFit P R c p v) : Behaves P R c p v := by
  obtain ⟨O, loc, hO, hv, harmed⟩ := h
  have hc : Sound P R c.assertions O (c.Uniform P R O) c := Ctx.Uniform.sound c
  obtain ⟨d, hd, hsound, hwrites⟩ := harmed.write hO hc hv
  refine ⟨?_, ?_, fun {d'} hd' σ t q ht hq o e hread => ?_⟩
  · obtain ⟨m, -, e, hread, -, hval⟩ := harmed.read hO hc
    refine ⟨m, e, hread, fun σ => ?_⟩
    obtain ⟨geps, type, hsel, hpath⟩ := harmed.selected_at σ
    obtain ⟨o, -, hcontent⟩ := hc.content (loc σ) (harmed.declared σ) (harmed.field σ)
    refine ⟨o, { c with accessed := c.accessed.insert (loc σ).ref.name }, ?_,
      (hval σ).trans (TypedPath.value_eq hcontent σ)⟩
    rw [hsel, Pointer.read, hpath, Py.ofExcept_ok_bind]
    exact TypedPath.read_of_content rfl hcontent
  · obtain ⟨m, -, e, hread, -, hval⟩ := harmed.read hO hsound
    refine ⟨d, m, e, hd, hread, fun σ => (hval σ).trans ?_⟩
    exact hwrites.hit (harmed.declared σ) (harmed.field σ) ⟨rfl, rfl, rfl⟩
  · cases hd.symm.trans hd'
    obtain rfl := (harmed.selected_at σ).unique ht
    have hcontent := (TypedPath.exists_read_iff rfl).mp ⟨e, hread⟩
    by_cases hG : c.Uniform P R O q.ref.name q.fields
    · obtain ⟨o', -, hcontent'⟩ := hsound.content q hq hG
      obtain ⟨e', hread'⟩ := (TypedPath.exists_read_iff hsound.assertions).mpr hcontent'
      refine ⟨o', e', hread', fun hsame => ?_, fun hne => ?_⟩
      · rw [← TypedPath.value_eq hcontent' σ]
        exact hwrites.hit hq hG hsame
      · rw [← TypedPath.value_eq hcontent' σ, ← TypedPath.value_eq hcontent σ]
        exact hwrites.miss hq hG hne
    · have hcontent' : q.content d = .ok o :=
        (TypedPath.content_congr (hwrites.field hG)).trans hcontent
      obtain ⟨e', hread'⟩ := (TypedPath.exists_read_iff hsound.assertions).mpr hcontent'
      refine ⟨o, e', hread', fun hsame => ?_, fun _ => rfl⟩
      have hfield := harmed.field σ
      rw [hsame.1, hsame.2.1] at hfield
      exact absurd hfield hG

/-- An array of ten rows of ten words. -/
def rows : Reference := ⟨"rows", .pointer (.array 10 (.array 10 (.int 64)))⟩

/-- The row of a number. -/
def rowAt (name : String) : Pointer :=
  .base rows [[.bvVal 64 0, .ofTerm (symbol name)]] (.pointer (.array 10 (.int 64)))

/-- An array of ten pointers. -/
def cells : Reference := ⟨"cells", .pointer (.array 10 (.pointer (.int 64)))⟩

def cellAt (name : String) : Pointer :=
  .base cells [[.bvVal 64 0, .ofTerm (symbol name)]] (.pointer (.pointer (.int 64)))

/-- The sum of two indices, as `canonical_path` has it. -/
def indexSum (P : Lib) (i j : Term (.bv 64)) : Value := ⟨.bv 64, P.simplify (.bin .add i j)⟩

theorem eval_indexSum_zero (i : Term (.bv 64)) (σ : Env) :
    (P.simplify (.bin .add i (.lit (BitVec.ofNat 64 0)))).eval σ = i.eval σ := by
  rw [P.eval_simplify, Term.eval, Term.eval_lit]
  exact BitVec.add_zero _

theorem lt_of_bounded {name : String} (h : below name ∈ bounds) (hΓ : ∀ t ∈ bounds, t ∈ Γ)
    (hσ : Holds σ Γ) : ((symbol name).eval σ).toNat < 10 :=
  lt_of_bounds h fun t ht => hσ t (hΓ t ht)

/-- The word of a row. -/
def wordPath (P : Lib) (hΓ : ∀ t ∈ bounds, t ∈ Γ) (name : String) (h : below name ∈ bounds) :
    TypedPath P Γ where
  ref := rows
  path := [indexSum P (.lit (BitVec.ofNat 64 0)) (.lit (BitVec.ofNat 64 0)),
    indexSum P (symbol name) (.lit (BitVec.ofNat 64 0)), ⟨.bv 64, P.simplify (symbol "z")⟩]
  fields := []
  idxs := _
  typed := by
    refine .pointer (fun σ _ => ?_) (.array (by decide) (fun σ hσ => ?_)
      (.array (by decide) (fun σ hσ => ?_) .int))
    · rw [eval_indexSum_zero, Term.eval_lit]
      rfl
    · rw [eval_indexSum_zero]
      exact lt_of_bounded h hΓ hσ
    · rw [P.eval_simplify]
      exact lt_of_bounded (by decide) hΓ hσ

def cellPath (P : Lib) (name : String) (h : below name ∈ bounds) : TypedPath P bounds where
  ref := cells
  path := [indexSum P (.lit (BitVec.ofNat 64 0)) (.lit (BitVec.ofNat 64 0)),
    ⟨.bv 64, P.simplify (symbol name)⟩]
  fields := []
  idxs := _
  typed := by
    refine .pointer (fun σ _ => ?_) (.array (by decide) (fun σ hσ => ?_) (.stored (by decide)))
    · rw [eval_indexSum_zero, Term.eval_lit]
      rfl
    · rw [P.eval_simplify]
      exact lt_of_bounds h hσ

theorem exists_initRef_rows : ∃ c g, initRef rows boundedStart = .ok () c ∧
    c.assertions = bounds ∧ c.field rows.name [] = some (.decl g 3 (.bv 64)) :=
  ⟨_, _, rfl, rfl, rfl⟩

theorem exists_initRef_cells : ∃ c g, initRef cells boundedStart = .ok () c ∧
    c.assertions = bounds ∧ c.field cells.name [] = some (.decl g 2 (.bv 64)) :=
  ⟨_, _, rfl, rfl, rfl⟩

/-- A symbol is read as a term. -/
theorem uniform_of_decl {q : TypedPath P c.assertions} {g : String} {s : Srt}
    (hq : q.Declared R) (h : c.field q.ref.name q.fields = some (.decl g q.idxs.length s)) :
    c.Uniform P R {o | ∃ t, o = .expr ⟨s, t⟩} q.ref.name q.fields where
  memFn := ⟨_, h, .decl⟩
  read r hr hname hfields := by
    have htype : q.ref.type = r.ref.type := by
      rw [show q.ref.type = _ from hq, show r.ref.type = _ from hr, hname]
    have htyped := r.typed
    rw [← htype, hfields] at htyped
    have hlen := q.typed.length_eq htyped
    obtain ⟨xs, hxs⟩ := exists_argTerms r.typed.sort_eq
    have hcontent : r.content c = .ok (.expr ⟨s, .app g xs s⟩) := by
      rw [TypedPath.content_eq (hname ▸ hfields ▸ h), Obj.apply, if_pos hlen.symm, hxs]
      rfl
    exact ⟨_, ⟨_, rfl⟩, (TypedPath.exists_read_iff rfl).mpr hcontent⟩

theorem exists_eval_symbol (f : String → Nat) :
    ∃ σ : Env, ∀ name, (symbol name).eval σ = BitVec.ofNat 64 (f name) :=
  ⟨⟨fun name s => s.casesOn (motive := Srt.Val) default (fun w => BitVec.ofNat w (f name)) default,
    fun _ _ _ => default⟩, fun _ => by rw [symbol, Term.eval]⟩

/-- Nothing is known of the indices of two cells. -/
theorem not_decided_cells {x y : String} (hne : x ≠ y) (hx : below x ∈ bounds)
    (hy : below y ∈ bounds)
    (h : indicesEq (cellPath P x hx).idxs (cellPath P y hy).idxs = .ok cond) :
    ¬Decided P cond := by
  obtain ⟨cond', hcond', heval⟩ := exists_indicesEq (show (cellPath P x hx).idxs.length =
    (cellPath P y hy).idxs.length from rfl) (cellPath P x hx).typed.sort_eq
    (cellPath P y hy).typed.sort_eq
  cases h.symm.trans hcond'
  have hval : ∀ σ, cond.eval σ = true ↔ (symbol x).eval σ = (symbol y).eval σ := by
    intro σ
    rw [heval]
    show [_, (⟨.bv 64, _⟩ : Σ s : Srt, s.Val)] = [_, ⟨.bv 64, _⟩] ↔ _
    rw [List.cons.injEq, List.cons.injEq, P.eval_simplify, P.eval_simplify]
    constructor
    · exact fun h => eq_of_heq (Sigma.mk.inj h.2.1).2
    · exact fun h => ⟨rfl, congrArg (Sigma.mk (Srt.bv 64)) h, rfl⟩
  refine not_decided_of_eval ?_ ?_
  · obtain ⟨σ, hσ⟩ := exists_eval_symbol fun _ => 0
    exact ⟨σ, (hval σ).mpr (by rw [hσ, hσ])⟩
  · obtain ⟨σ, hσ⟩ := exists_eval_symbol fun name => if name = x then 1 else 0
    refine ⟨σ, Bool.eq_false_iff.mpr fun h => ?_⟩
    have heq := (hval σ).mp h
    rw [hσ, hσ, if_pos rfl, if_neg (Ne.symm hne)] at heq
    exact absurd heq (by decide)

end L4Thread.Irpy
