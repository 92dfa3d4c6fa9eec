import L4Thread.Theory.Symbolic

/-!
# Merging the two sides of a branch

What an object of the context evaluates to under an assignment: a term to its value, a pointer to the
place it points at, and a function to what its calls evaluate to. `Mergeable` describes the pairs of
objects for which `util.If` returns an object that evaluates to the selected one, where the condition
can be true and can be false.
-/

namespace L4Thread.Irpy

open Smt

variable {P : Lib} {σ : Env}

/-! ## What objects evaluate to -/

/-- A place in memory: a field of a reference by the values of the indices, or a machine word. -/
inductive Place
  | field (ref : String) (geps : List (List (Σ s : Srt, s.Val)))
  | word (v : BitVec 64)

def Value.val (σ : Env) (v : Value) : Σ s : Srt, s.Val := ⟨v.sort, v.term.eval σ⟩

def Pointer.place (σ : Env) : Pointer → Place
  | base ref geps _ => .field ref.name (geps.map fun g => g.map (Value.val σ))
  | raw name _ => .word (name.eval σ)
  | ite cond p1 p2 _ _ => if cond.eval σ = true then p1.place σ else p2.place σ

/-- The function of the program that an object is. -/
def Obj.target (σ : Env) : Obj → Option String
  | func name => some name
  | lam cond a b => if cond.eval σ = true then a.target σ else b.target σ
  | _ => none

/-- The first object evaluates to what the second one does. A word is the place it points at; a
function has to return wherever the other one does. -/
inductive Matches (P : Lib) (σ : Env) : Obj → Obj → Prop
  | expr {s : Srt} {t u : Term s} (h : t.eval σ = u.eval σ) : Matches P σ (.expr ⟨s, t⟩) (.expr ⟨s, u⟩)
  | ptr {p q : Pointer} (h : p.place σ = q.place σ) : Matches P σ (.ptr p) (.ptr q)
  | word {p : Pointer} {t : Term (.bv 64)} (h : p.place σ = .word (t.eval σ)) :
    Matches P σ (.ptr p) (.expr ⟨.bv 64, t⟩)
  | bitcast {p q : Pointer} {s t : Ty} {gs hs : List (List Value × Ty)}
    (h : p.place σ = q.place σ)
    (hidxs : gs.map (fun g => g.1.map (Value.val σ)) = hs.map fun g => g.1.map (Value.val σ)) :
    Matches P σ (.bitcast p s gs) (.bitcast q t hs)
  | function {f g : Obj} (hf : f.isFunction) (hg : g.isFunction) (htarget : f.target σ = g.target σ)
    (hreturns : ∀ args y, g.apply P args = .ok y → ∃ x, f.apply P args = .ok x)
    (h : ∀ args x y, f.apply P args = .ok x → g.apply P args = .ok y → Matches P σ x y) :
    Matches P σ f g

/-! ## The order of a function -/

namespace Obj

/-- How often the object, and what its calls return, can be called. -/
def order : Obj → Nat
  | update old _ value => max old.order (value.order + 1)
  | lam _ a b => max 1 (max a.order b.order)
  | const v => v.order + 1
  | func _ | decl _ _ _ => 1
  | _ => 0

variable {a b f m : Obj} {c : Term .bool} {args : List Value}

theorem order_update : (update f args a).order = max f.order (a.order + 1) := rfl

theorem order_lam : (lam c a b).order = max 1 (max a.order b.order) := rfl

theorem order_const : (const a).order = a.order + 1 := rfl


theorem order_eq_zero (ha : ¬a.isFunction) : a.order = 0 := by
  cases a with
  | expr | ptr | bitcast => rfl
  | _ => exact absurd rfl ha

theorem order_pos (ha : a.isFunction) : 0 < a.order := by
  cases a with
  | expr | ptr | bitcast => cases ha
  | func | decl => exact Nat.one_pos
  | update | lam => simp only [order_update, order_lam, lt_max_iff, Nat.succ_pos, true_or, or_true]
  | const => exact Nat.succ_pos _

theorem order_asFunction_le (a : Obj) : a.asFunction.order ≤ max 1 a.order := by
  by_cases ha : a.isFunction = true
  · rw [asFunction, if_pos ha]
    exact Nat.le_max_right ..
  · rw [asFunction, if_neg ha, order_const, order_eq_zero ha]
    exact Nat.le_max_left ..

end Obj

variable {c : Term .bool} {a b m : Obj}

/-- What `util.If` does with two objects that are not equal. -/
def ifDistinct (P : Lib) (cond : Term .bool) (a b : Obj) : Except Exc Obj :=
  match a with
  | .ptr p => return .ptr (← p.iteObj P b cond)
  | a =>
    if a.isFunction ∨ b.isFunction then pure (.lam cond a.asFunction b.asFunction)
    else
      match a with
      | .expr _ => throw .z3
      | _ => throw .value

theorem If_eq_of_not_terms (hab : (∀ u, a ≠ .expr u) ∨ ∀ v, b ≠ .expr v) :
    If P c a b =
      if (P.simplify (P.simplify c)).isLit true then .ok a
      else if (P.simplify (P.simplify c)).isLit false then .ok b
      else definitelyEqual P a b >>= fun e =>
        if e then pure a else ifDistinct P (P.simplify c) a b := by
  cases a with
  | expr u =>
    cases b with
    | expr v => exact absurd rfl (hab.elim (fun h => absurd rfl (h u)) fun h => h v)
    | _ => rfl
  | _ => rfl

theorem not_terms_of_not_exists (h : ¬∃ u v, a = .expr u ∧ b = .expr v) :
    (∀ u, a ≠ .expr u) ∨ ∀ v, b ≠ .expr v := by
  by_cases ha : ∃ u, a = .expr u
  · obtain ⟨u, rfl⟩ := ha
    exact .inr fun v hb => h ⟨u, v, rfl, hb⟩
  · exact .inl fun u hu => ha ⟨u, hu⟩

/-- Of objects that are no pointers only functions are made one. -/
theorem ifDistinct_eq_lam (ha : ∀ p, a ≠ .ptr p) (h : ifDistinct P c a b = .ok m) :
    (a.isFunction ∨ b.isFunction) ∧ m = .lam c a.asFunction b.asFunction := by
  unfold ifDistinct at h
  split at h
  · exact absurd rfl (ha _)
  split at h
  · rename_i hfn
    cases h
    exact ⟨hfn, rfl⟩
  · split at h <;> cases h

theorem ifDistinct_eq_ok (h : ifDistinct P c a b = .ok m) :
    ¬m.isFunction ∨ (a.isFunction ∨ b.isFunction) ∧ m = .lam c a.asFunction b.asFunction := by
  by_cases ha : ∃ p, a = .ptr p
  · obtain ⟨p, rfl⟩ := ha
    obtain ⟨q, -, hq⟩ := bind_eq_ok_iff.1 h
    cases hq
    exact .inl nofun
  · exact .inr (ifDistinct_eq_lam (fun p hp => ha ⟨p, hp⟩) h)

/-- The four ways in which `util.If` returns. -/
theorem If_eq_ok (h : If P c a b = .ok m) :
    m = a ∨ m = b ∨ ¬m.isFunction ∨
      (a.isFunction ∨ b.isFunction) ∧ m = .lam (P.simplify c) a.asFunction b.asFunction := by
  by_cases hab : ∃ u v, a = .expr u ∧ b = .expr v
  · obtain ⟨u, v, rfl, rfl⟩ := hab
    obtain ⟨w, -, hw⟩ := bind_eq_ok_iff.1 h
    cases hw
    exact .inr (.inr (.inl nofun))
  rw [If_eq_of_not_terms (not_terms_of_not_exists hab)] at h
  split at h
  · cases h
    exact .inl rfl
  split at h
  · cases h
    exact .inr (.inl rfl)
  obtain ⟨e, -, he⟩ := bind_eq_ok_iff.1 h
  split at he
  · cases he
    exact .inl rfl
  · exact .inr (.inr (ifDistinct_eq_ok he))

theorem order_If_le (h : If P c a b = .ok m) : m.order ≤ max a.order b.order := by
  rcases If_eq_ok h with rfl | rfl | hm | ⟨hfn, rfl⟩
  · exact Nat.le_max_left ..
  · exact Nat.le_max_right ..
  · rw [Obj.order_eq_zero hm]
    exact Nat.zero_le _
  · have ha := a.order_asFunction_le
    have hb := b.order_asFunction_le
    have hpos : 0 < a.order ∨ 0 < b.order := hfn.imp Obj.order_pos Obj.order_pos
    rw [Obj.order_lam]
    omega

/-- What a call returns can be called less often. -/
theorem order_apply_lt {f y : Obj} {args : List Value} (h : f.apply P args = .ok y) :
    y.order < f.order := by
  induction f generalizing y with
  | decl g arity s =>
    rw [Obj.apply] at h
    split at h
    · obtain ⟨xs, -, hxs⟩ := bind_eq_ok_iff.1 h
      cases hxs
      exact Nat.one_pos
    · cases h
  | update old margs value ihold _ =>
    obtain ⟨t, -, ht⟩ := bind_eq_ok_iff.1 h
    obtain ⟨z, hz, hif⟩ := bind_eq_ok_iff.1 ht
    have := ihold hz
    have := order_If_le hif
    rw [Obj.order_update]
    omega
  | lam t a b iha ihb =>
    obtain ⟨u, hu, hrest⟩ := bind_eq_ok_iff.1 h
    obtain ⟨v, hv, hif⟩ := bind_eq_ok_iff.1 hrest
    have := iha hu
    have := ihb hv
    have := order_If_le hif
    rw [Obj.order_lam]
    omega
  | const v =>
    cases h
    exact Nat.lt_succ_self _
  | _ => cases h

theorem Matches.refl (a : Obj) : Matches P σ a a := by
  induction hn : a.order using Nat.strong_induction_on generalizing a with
  | _ n ih =>
    cases a with
    | expr v => exact .expr rfl
    | ptr p => exact .ptr rfl
    | bitcast p t gs => exact .bitcast rfl rfl
    | _ =>
      refine .function rfl rfl rfl (fun args y hy => ⟨y, hy⟩) fun args x y hx hy => ?_
      cases hx.symm.trans hy
      exact ih _ (hn ▸ order_apply_lt hx) _ rfl

theorem Matches.trans {x y z : Obj} (h : Matches P σ x y) (h' : Matches P σ y z) :
    Matches P σ x z := by
  induction h generalizing z with
  | expr h =>
    cases h' with
    | expr h' => exact .expr (h.trans h')
    | function hf => cases hf
  | ptr h =>
    cases h' with
    | ptr h' => exact .ptr (h.trans h')
    | word h' => exact .word (h.trans h')
    | function hf => cases hf
  | word h =>
    cases h' with
    | expr h' => exact .word (h.trans (congrArg Place.word h'))
    | function hf => cases hf
  | bitcast h hidxs =>
    cases h' with
    | bitcast h' hidxs' => exact .bitcast (h.trans h') (hidxs.trans hidxs')
    | function hf => cases hf
  | @function f g hf hg htarget hreturns _ ih =>
    cases h' with
    | @function _ k _ hk htarget' hreturns' h' =>
      refine .function hf hk (htarget.trans htarget') (fun args w hw => ?_) fun args u w hu hw => ?_
      · obtain ⟨v, hv⟩ := hreturns' args w hw
        exact hreturns args v hv
      · obtain ⟨v, hv⟩ := hreturns' args w hw
        exact ih args u v hu hv (h' args v w hv hw)
    | _ => cases hg

/-- What two calls return. -/
theorem Matches.apply {f g x y : Obj} {args : List Value} (h : Matches P σ f g)
    (hx : f.apply P args = .ok x) (hy : g.apply P args = .ok y) : Matches P σ x y := by
  cases h with
  | function _ _ _ _ h => exact h args x y hx hy
  | _ => cases hx

/-! ## Pairs of objects that can be merged -/

/-- What `util.If` merges correctly, for a condition that is both possible under the assertions. -/
inductive Mergeable (P : Lib) (Γ : List (Term .bool)) (cond : Term .bool) : Obj → Obj → Prop
  | term {s : Srt} (t u : Term s) : Mergeable P Γ cond (.expr ⟨s, t⟩) (.expr ⟨s, u⟩)
  | same {a b : Obj} (h : definitelyEqual P a b = .ok true)
    (heval : ∀ σ, Holds σ Γ → cond.eval σ = false → Matches P σ a b) : Mergeable P Γ cond a b
  | ptr {p q : Pointer} (h : definitelyEqual P (.ptr p) (.ptr q) = .ok false) :
    Mergeable P Γ cond (.ptr p) (.ptr q)
  | word (p : Pointer) (t : Term (.bv 64)) : Mergeable P Γ cond (.ptr p) (.expr ⟨.bv 64, t⟩)
  | function {f g : Obj} (hf : f.isFunction) (hg : g.isFunction)
    (hne : definitelyEqual P f g = .ok false)
    (hreturns : ∀ args, (∃ x, f.apply P args = .ok x) ↔ ∃ y, g.apply P args = .ok y)
    (h : ∀ args x y, f.apply P args = .ok x → g.apply P args = .ok y → Mergeable P Γ cond x y) :
    Mergeable P Γ cond f g

/-- The condition can be true and can be false. -/
structure Undecided (Γ : List (Term .bool)) (cond : Term .bool) : Prop where
  exists_true : ∃ σ, Holds σ Γ ∧ cond.eval σ = true
  exists_false : ∃ σ, Holds σ Γ ∧ cond.eval σ = false

variable {Γ : List (Term .bool)} {cond : Term .bool}

theorem Undecided.isLit_eq_false (h : Undecided Γ cond) (hc : ∀ σ, c.eval σ = cond.eval σ)
    (v : Bool) : (P.simplify (P.simplify c)).isLit v = false := by
  rw [Bool.eq_false_iff]
  intro hlit
  have hv : ∀ σ, cond.eval σ = v := fun σ => (hc σ).symm.trans (eval_of_simplify_isLit hlit σ)
  obtain ⟨σ, -, hσ⟩ := h.exists_true
  obtain ⟨τ, -, hτ⟩ := h.exists_false
  rw [hv] at hσ hτ
  cases hσ.symm.trans hτ

theorem Undecided.If_eq (h : Undecided Γ cond) (hc : ∀ σ, c.eval σ = cond.eval σ)
    (hab : (∀ u, a ≠ .expr u) ∨ ∀ v, b ≠ .expr v) :
    If P c a b = definitelyEqual P a b >>= fun e =>
      if e then pure a else ifDistinct P (P.simplify c) a b := by
  rw [If_eq_of_not_terms hab, h.isLit_eq_false hc, h.isLit_eq_false hc]
  rfl

theorem Undecided.If_eq_ifDistinct (h : Undecided Γ cond) (hc : ∀ σ, c.eval σ = cond.eval σ)
    (hab : (∀ u, a ≠ .expr u) ∨ ∀ v, b ≠ .expr v) (hne : definitelyEqual P a b = .ok false) :
    If P c a b = ifDistinct P (P.simplify c) a b := by
  rw [h.If_eq hc hab, hne]
  rfl

/-- Terms of different sorts are not merged. -/
theorem sort_eq_of_If (hlit : ∀ v, (P.simplify (P.simplify c)).isLit v = false) {u v : Value}
    (hm : If P c (.expr u) (.expr v) = .ok m) : u.sort = v.sort := by
  by_contra hne
  obtain ⟨w, hw, -⟩ := bind_eq_ok_iff.1 hm
  rw [ifValue] at hw
  rw [hlit, hlit] at hw
  simp only [Bool.false_eq_true, if_false] at hw
  split at hw
  · cases hw
  · obtain ⟨e, he, hrest⟩ := bind_eq_ok_iff.1 hw
    rw [definitelyEqual, dif_neg hne] at he
    split at he
    · cases he
      cases hrest
    · cases he

theorem Undecided.sort_eq (h : Undecided Γ cond) (hc : ∀ σ, c.eval σ = cond.eval σ) {u v : Value}
    (hm : If P c (.expr u) (.expr v) = .ok m) : u.sort = v.sort :=
  sort_eq_of_If (h.isLit_eq_false hc) hm

/-- Wherever the assertions hold, `m` is related to the selected one of `a` and `b`. -/
def SelectedBy {α : Type} (Q : Env → α → α → Prop) (Γ : List (Term .bool)) (cond : Term .bool)
    (m a b : α) : Prop :=
  ∀ σ, Holds σ Γ → Q σ m (if cond.eval σ = true then a else b)

/-- The merged object evaluates to the selected one. -/
abbrev Selects (P : Lib) (Γ : List (Term .bool)) (cond : Term .bool) (m a b : Obj) : Prop :=
  SelectedBy (Matches P) Γ cond m a b

section

variable {α : Type} {Q : Env → α → α → Prop} {x y z : α}

theorem SelectedBy.left (h : SelectedBy Q Γ cond z x y) (hσ : Holds σ Γ)
    (hcond : cond.eval σ = true) : Q σ z x := by
  have hz := h σ hσ
  rwa [if_pos hcond] at hz

theorem SelectedBy.right (h : SelectedBy Q Γ cond z x y) (hσ : Holds σ Γ)
    (hcond : cond.eval σ = false) : Q σ z y := by
  have hz := h σ hσ
  rwa [if_neg (by rw [hcond]; exact Bool.false_ne_true)] at hz

theorem selects_intro (hleft : ∀ σ, Holds σ Γ → cond.eval σ = true → Q σ z x)
    (hright : ∀ σ, Holds σ Γ → cond.eval σ = false → Q σ z y) : SelectedBy Q Γ cond z x y := by
  intro σ hσ
  split
  · rename_i hc
    exact hleft σ hσ hc
  · rename_i hc
    exact hright σ hσ (Bool.eq_false_iff.2 hc)

theorem SelectedBy.mono {β : Type} {Q' : Env → β → β → Prop} {x' y' z' : β}
    (h : SelectedBy Q Γ cond z x y) (hleft : ∀ σ, Q σ z x → Q' σ z' x')
    (hright : ∀ σ, Q σ z y → Q' σ z' y') : SelectedBy Q' Γ cond z' x' y' :=
  selects_intro (fun σ hσ hc => hleft σ (h.left hσ hc)) fun σ hσ hc => hright σ (h.right hσ hc)

end

theorem exists_If_terms {s : Srt} (t u : Term s) (hc : ∀ σ, c.eval σ = cond.eval σ) :
    ∃ m, If P c (.expr ⟨s, t⟩) (.expr ⟨s, u⟩) = .ok m ∧
      Selects P Γ cond m (.expr ⟨s, t⟩) (.expr ⟨s, u⟩) := by
  obtain ⟨w, hw, heval⟩ := exists_ifValue P c t u
  simp only [hc] at heval
  refine ⟨.expr ⟨s, w⟩, ?_, selects_intro (fun σ _ hv => ?_) fun σ _ hv => ?_⟩
  · rw [If, hw]
    rfl
  · exact .expr ((heval σ).trans (if_pos hv))
  · exact .expr ((heval σ).trans (if_neg (Bool.eq_false_iff.1 hv)))

theorem place_ite {p q : Pointer} {t : Term (.bv 64)} {ty : Ty} (hc : ∀ σ, c.eval σ = cond.eval σ) :
    (Pointer.ite (P.simplify c) p q t ty).place σ =
      if cond.eval σ = true then p.place σ else q.place σ := by
  rw [Pointer.place, P.eval_simplify, hc]

theorem target_lam {f g : Obj} (hc : ∀ σ, c.eval σ = cond.eval σ) :
    (Obj.lam (P.simplify c) f g).target σ =
      if cond.eval σ = true then f.target σ else g.target σ := by
  rw [Obj.target, P.eval_simplify, hc]

/-- Objects of different kinds are never the same. -/
theorem is_eq_false (hab : a ≠ b) : P.is a b = false :=
  Bool.eq_false_iff.2 fun h => hab (P.eq_of_is h)

theorem definitelyEqual_function {f : Obj} (hf : f.isFunction) :
    definitelyEqual P f b = .ok (P.is f b) := by
  cases f with
  | expr | ptr | bitcast => cases hf
  | _ => rfl

theorem definitelyEqual_term {v : Value} (hb : ∀ w, b ≠ .expr w) :
    definitelyEqual P (.expr v) b = .ok false := by
  cases b with
  | expr w => exact absurd rfl (hb w)
  | _ => exact congrArg Except.ok (is_eq_false (hb v).symm)

theorem ifDistinct_function {f : Obj} (hf : f.isFunction) :
    ifDistinct P c f b = .ok (.lam c f b.asFunction) := by
  cases f with
  | expr | ptr | bitcast => cases hf
  | _ => rfl

theorem not_terms_of_function {f : Obj} (hf : f.isFunction) :
    (∀ u, f ≠ .expr u) ∨ ∀ v, b ≠ .expr v := by
  refine .inl fun u h => ?_
  rw [h] at hf
  cases hf

theorem not_terms_ptr (p : Pointer) : (∀ u, Obj.ptr p ≠ .expr u) ∨ ∀ v, b ≠ .expr v := by
  refine .inl fun u h => ?_
  cases h

theorem asFunction_eq {f : Obj} (hf : f.isFunction) : f.asFunction = f := if_pos hf

theorem apply_lam_eq_ok {f g y : Obj} {args : List Value} :
    (Obj.lam c f g).apply P args = .ok y ↔ ∃ u v, f.apply P args = .ok u ∧
      g.apply P args = .ok v ∧ If P c u v = .ok y := by
  rw [Obj.apply, bind_eq_ok_iff]
  constructor
  · rintro ⟨u, hu, h⟩
    obtain ⟨v, hv, h⟩ := bind_eq_ok_iff.1 h
    exact ⟨u, v, hu, hv, h⟩
  · rintro ⟨u, v, hu, hv, h⟩
    exact ⟨u, hu, bind_eq_ok_iff.2 ⟨v, hv, h⟩⟩

/-- What `util.If` returns for mergeable objects evaluates to the selected one. -/
theorem Mergeable.exists_If (h : Undecided Γ cond) (hab : Mergeable P Γ cond a b)
    (hc : ∀ σ, c.eval σ = cond.eval σ) : ∃ m, If P c a b = .ok m ∧ Selects P Γ cond m a b := by
  induction hab generalizing c with
  | term t u => exact exists_If_terms t u hc
  | @same a b heq heval =>
    by_cases hab : ∃ u v, a = .expr u ∧ b = .expr v
    · obtain ⟨⟨s, t⟩, ⟨s', u⟩, rfl, rfl⟩ := hab
      obtain ⟨σ, hσ, hv⟩ := h.exists_false
      have hm := heval σ hσ hv
      cases hm with
      | expr => exact exists_If_terms _ _ hc
      | function hf => cases hf
    · refine ⟨a, ?_, selects_intro (fun σ _ _ => Matches.refl a) heval⟩
      rw [h.If_eq hc (not_terms_of_not_exists hab), heq]
      rfl
  | @ptr p q hne =>
    obtain ⟨t, ht⟩ := iteObj_ptr (P := P) p q (P.simplify c)
    refine ⟨.ptr (.ite (P.simplify c) p q t p.type), ?_, selects_intro (fun σ _ hv => ?_)
      fun σ _ hv => ?_⟩
    · rw [h.If_eq_ifDistinct hc (not_terms_ptr p) hne]
      exact bind_eq_ok_iff.2 ⟨_, ht, rfl⟩
    · exact .ptr ((place_ite hc).trans (if_pos hv))
    · exact .ptr ((place_ite hc).trans (if_neg (Bool.eq_false_iff.1 hv)))
  | word p u =>
    obtain ⟨t, ht⟩ := iteObj_word (P := P) p u (P.simplify c)
    have hne : definitelyEqual P (.ptr p) (.expr ⟨.bv 64, u⟩) = .ok false :=
      congrArg Except.ok (is_eq_false nofun)
    refine ⟨.ptr (.ite (P.simplify c) p (.raw u p.type) t p.type), ?_,
      selects_intro (fun σ _ hv => ?_) fun σ _ hv => ?_⟩
    · rw [h.If_eq_ifDistinct hc (not_terms_ptr p) hne]
      exact bind_eq_ok_iff.2 ⟨_, ht, rfl⟩
    · exact .ptr ((place_ite hc).trans (if_pos hv))
    · exact .word ((place_ite hc).trans (if_neg (Bool.eq_false_iff.1 hv)))
  | @function f g hf hg hne hreturns _ ih =>
    have hlam : (Obj.lam (P.simplify c) f g).isFunction = true := rfl
    have hsimp : ∀ σ, (P.simplify c).eval σ = cond.eval σ := fun σ =>
      (P.eval_simplify c σ).trans (hc σ)
    refine ⟨.lam (P.simplify c) f g, ?_, selects_intro (fun σ hσ hv => ?_) fun σ hσ hv => ?_⟩
    · rw [h.If_eq_ifDistinct hc (not_terms_of_function hf) hne, ifDistinct_function hf,
        asFunction_eq hg]
    · refine .function hlam hf ((target_lam hc).trans (if_pos hv)) (fun args u hu => ?_)
        fun args x u hx hu => ?_
      · obtain ⟨v, hw⟩ := (hreturns args).1 ⟨u, hu⟩
        obtain ⟨m, hm, -⟩ := ih args u v hu hw hsimp
        exact ⟨m, apply_lam_eq_ok.2 ⟨u, v, hu, hw, hm⟩⟩
      · obtain ⟨u', v, hu', hw, hx⟩ := apply_lam_eq_ok.1 hx
        cases hu.symm.trans hu'
        obtain ⟨m, hm, hsel⟩ := ih args u v hu hw hsimp
        cases hx.symm.trans hm
        exact hsel.left hσ hv
    · refine .function hlam hg ((target_lam hc).trans (if_neg (Bool.eq_false_iff.1 hv)))
        (fun args v hw => ?_) fun args x v hx hw => ?_
      · obtain ⟨u, hu⟩ := (hreturns args).2 ⟨v, hw⟩
        obtain ⟨m, hm, -⟩ := ih args u v hu hw hsimp
        exact ⟨m, apply_lam_eq_ok.2 ⟨u, v, hu, hw, hm⟩⟩
      · obtain ⟨u, v', hu, hw', hx⟩ := apply_lam_eq_ok.1 hx
        cases hw.symm.trans hw'
        obtain ⟨m, hm, hsel⟩ := ih args u v hu hw hsimp
        cases hx.symm.trans hm
        exact hsel.right hσ hv

/-- Only mergeable objects are merged correctly, by induction on what the merged object evaluates to
where the condition is true. -/
theorem mergeable_of_selects (h : Undecided Γ cond) (hc : ∀ σ, c.eval σ = cond.eval σ)
    (hm : If P c a b = .ok m) (hsel : Selects P Γ cond m a b) : Mergeable P Γ cond a b := by
  obtain ⟨σ, hσ, hv⟩ := h.exists_true
  obtain ⟨τ, hτ, hw⟩ := h.exists_false
  have hleft := hsel.left hσ hv
  have hright := hsel.right hτ hw
  induction hleft generalizing b c with
  | @expr s t u heq =>
    cases hright with
    | expr => exact .term ..
    | function hf => cases hf
  | @ptr p q heq =>
    rw [h.If_eq hc (not_terms_ptr q)] at hm
    obtain ⟨e, he, hrest⟩ := bind_eq_ok_iff.1 hm
    cases e with
    | true =>
      cases hrest
      exact .same he fun σ' hσ' hv' => hsel.right hσ' hv'
    | false =>
      cases hright with
      | ptr => exact .ptr he
      | word => exact .word ..
      | function hf => cases hf
  | @word p t heq =>
    -- a term and something else are at most made a function
    have hb : ∀ v, b ≠ .expr v := by
      rintro v rfl
      obtain ⟨w, -, hw⟩ := bind_eq_ok_iff.1 hm
      cases hw
    rw [h.If_eq_ifDistinct hc (.inr hb) (definitelyEqual_term hb)] at hm
    have hterm : ∀ r, Obj.expr ⟨.bv 64, t⟩ ≠ .ptr r := by
      intro r hr
      cases hr
    cases (ifDistinct_eq_lam hterm hm).2
  | @bitcast p q s t gs hs heq hidxs =>
    have hterms : (∀ u, Obj.bitcast q t hs ≠ .expr u) ∨ ∀ v, b ≠ .expr v := by
      refine .inl fun u hu => ?_
      cases hu
    rw [h.If_eq hc hterms] at hm
    obtain ⟨e, he, hrest⟩ := bind_eq_ok_iff.1 hm
    cases e with
    | true =>
      cases hrest
      exact .same he fun σ' hσ' hv' => hsel.right hσ' hv'
    | false =>
      have hcast : ∀ r, Obj.bitcast q t hs ≠ .ptr r := by
        intro r hr
        cases hr
      rw [if_neg Bool.false_ne_true] at hrest
      cases (ifDistinct_eq_lam hcast hrest).2
  | @function f g hf hg htarget hreturns _ ih =>
    rw [h.If_eq hc (not_terms_of_function hg), definitelyEqual_function hg] at hm
    cases his : P.is g b with
    | true =>
      rw [his] at hm
      cases hm
      refine .same ((definitelyEqual_function hg).trans (congrArg _ his)) fun σ' hσ' hv' => ?_
      exact hsel.right hσ' hv'
    | false =>
      rw [his] at hm
      change ifDistinct P (P.simplify c) g b = .ok f at hm
      rw [ifDistinct_function hg] at hm
      cases hm
      cases hright with
      | function _ hb _ hreturns' =>
        rw [asFunction_eq hb] at *
        have hboth : ∀ {args x}, (Obj.lam (P.simplify c) g b).apply P args = .ok x →
            ∃ u v, g.apply P args = .ok u ∧ b.apply P args = .ok v := by
          intro args x hx
          obtain ⟨u, v, hu, hv, -⟩ := apply_lam_eq_ok.1 hx
          exact ⟨u, v, hu, hv⟩
        refine .function hg hb ((definitelyEqual_function hg).trans (congrArg _ his))
          (fun args => ⟨?_, ?_⟩) fun args x y hx hy => ?_
        · rintro ⟨x, hx⟩
          obtain ⟨z, hz⟩ := hreturns args x hx
          obtain ⟨-, y, -, hy⟩ := hboth hz
          exact ⟨y, hy⟩
        · rintro ⟨y, hy⟩
          obtain ⟨z, hz⟩ := hreturns' args y hy
          obtain ⟨x, -, hx, -⟩ := hboth hz
          exact ⟨x, hx⟩
        · obtain ⟨z, hz⟩ := hreturns args x hx
          obtain ⟨x', y', hx', hy', hif⟩ := apply_lam_eq_ok.1 hz
          cases hx.symm.trans hx'
          cases hy.symm.trans hy'
          have hcall : Selects P Γ cond z x y :=
            selects_intro (fun σ' hσ' hv' => (hsel.left hσ' hv').apply hz hx)
              fun σ' hσ' hv' => (hsel.right hσ' hv').apply hz hy
          refine ih args z x hz hx (fun σ' => (P.eval_simplify c σ').trans (hc σ')) hif hcall ?_
          exact hcall.right hτ hw

/-- The merge returns what evaluates to the selected one. -/
def Merges {α : Type} (Q : Env → α → α → Prop) (Γ : List (Term .bool)) (cond : Term .bool)
    (m : α → α → Except Exc α) (a b : α) : Prop :=
  ∃ z, m a b = .ok z ∧ SelectedBy Q Γ cond z a b

/-- `util.If` is correct for the mergeable objects, and for no others. -/
theorem mergeable_iff (h : Undecided Γ cond) (hc : ∀ σ, c.eval σ = cond.eval σ) :
    Mergeable P Γ cond a b ↔ Merges (Matches P) Γ cond (If P c) a b := by
  constructor
  · exact fun hab => hab.exists_If h hc
  · rintro ⟨m, hm, hsel⟩
    exact mergeable_of_selects h hc hm hsel

/-! ## Dictionaries and lists -/

section

variable {κ α : Type} [DecidableEq κ] {m : α → α → Except Exc α} {Q : Env → α → α → Prop}

/-- Every entry of the second dictionary is in the first one. -/
def DictMatches (R : α → α → Prop) (out d : Dict κ α) : Prop :=
  ∀ k a, d.lookup k = some a → ∃ z, out.lookup k = some z ∧ R z a

/-- The entries for a key that both dictionaries have. -/
def DictMergeable (R : α → α → Prop) (d e : Dict κ α) : Prop :=
  ∀ k a b, d.lookup k = some a → e.lookup k = some b → R a b

/-- One round of the loop of `util.merge`. -/
def mergeKey (m : α → α → Except Exc α) (d e out : Dict κ α) (k : κ) : Except Exc (Dict κ α) :=
  match d.lookup k, e.lookup k with
  | some a, some b => do return out.insert k (← m a b)
  | some a, none => pure (out.insert k a)
  | none, some b => pure (out.insert k b)
  | none, none => pure out

/-- What `util.merge` has for a key of one of the dictionaries. -/
def Merged (m : α → α → Except Exc α) (x y z : Option α) : Prop :=
  match x, y with
  | some a, some b => ∃ c, m a b = .ok c ∧ z = some c
  | some a, none => z = some a
  | none, some b => z = some b
  | none, none => True

theorem mergeKey_spec {d e out out' : Dict κ α} {k : κ} (h : mergeKey m d e out k = .ok out') :
    Merged m (d.lookup k) (e.lookup k) (out'.lookup k) ∧
      ∀ j ≠ k, out'.lookup j = out.lookup j := by
  unfold mergeKey at h
  split at h
  · rename_i a b ha hb
    obtain ⟨c, hc, hout⟩ := bind_eq_ok_iff.1 h
    cases hout
    rw [ha, hb]
    exact ⟨⟨c, hc, AList.lookup_insert _⟩, fun j hj => AList.lookup_insert_ne hj⟩
  · rename_i a ha hb
    cases h
    rw [ha, hb]
    exact ⟨AList.lookup_insert _, fun j hj => AList.lookup_insert_ne hj⟩
  · rename_i b ha hb
    cases h
    rw [ha, hb]
    exact ⟨AList.lookup_insert _, fun j hj => AList.lookup_insert_ne hj⟩
  · rename_i ha hb
    cases h
    rw [ha, hb]
    exact ⟨trivial, fun _ _ => rfl⟩

/-- The loop: a key behind which it has been stays as it is. -/
theorem mergeKeys_spec {d e : Dict κ α} (ks : List κ) {out out' : Dict κ α}
    (h : ks.foldlM (mergeKey m d e) out = .ok out') (k : κ) :
    (k ∈ ks → Merged m (d.lookup k) (e.lookup k) (out'.lookup k)) ∧
      (k ∉ ks → out'.lookup k = out.lookup k) := by
  induction ks generalizing out with
  | nil =>
    cases h
    exact ⟨nofun, fun _ => rfl⟩
  | cons j ks ih =>
    rw [List.foldlM_cons] at h
    obtain ⟨out₁, h₁, hrest⟩ := bind_eq_ok_iff.1 h
    obtain ⟨hj, hother⟩ := mergeKey_spec h₁
    obtain ⟨hin, hout⟩ := ih hrest
    refine ⟨fun hk => ?_, fun hk => ?_⟩
    · by_cases hks : k ∈ ks
      · exact hin hks
      · obtain rfl | hk := List.mem_cons.1 hk
        · rw [hout hks]
          exact hj
        · exact absurd hk hks
    · obtain ⟨hkj, hks⟩ := not_or.1 fun h => hk (List.mem_cons.2 h)
      rw [hout hks, hother k hkj]

theorem exists_mergeKeys {d e : Dict κ α}
    (hm : ∀ k a b, d.lookup k = some a → e.lookup k = some b → ∃ c, m a b = .ok c)
    (ks : List κ) (out : Dict κ α) : ∃ out', ks.foldlM (mergeKey m d e) out = .ok out' := by
  induction ks generalizing out with
  | nil => exact ⟨out, rfl⟩
  | cons k ks ih =>
    have hstep : ∃ out₁, mergeKey m d e out k = .ok out₁ := by
      unfold mergeKey
      split
      · rename_i a b ha hb
        obtain ⟨c, hc⟩ := hm k a b ha hb
        exact ⟨_, bind_eq_ok_iff.2 ⟨c, hc, rfl⟩⟩
      · exact ⟨_, rfl⟩
      · exact ⟨_, rfl⟩
      · exact ⟨_, rfl⟩
    obtain ⟨out₁, h₁⟩ := hstep
    obtain ⟨out', h'⟩ := ih out₁
    exact ⟨out', (List.foldlM_cons ..).trans (bind_eq_ok_iff.2 ⟨out₁, h₁, h'⟩)⟩

theorem mergeDict_eq (d e : Dict κ α) :
    mergeDict m d e = (d.keys ++ e.keys).foldlM (mergeKey m d e) ∅ := rfl

theorem mergeDict_lookup {d e out : Dict κ α} (h : mergeDict m d e = .ok out) (k : κ) :
    Merged m (d.lookup k) (e.lookup k) (out.lookup k) := by
  by_cases hk : k ∈ d.keys ++ e.keys
  · exact (mergeKeys_spec _ h k).1 hk
  · rw [List.mem_append, not_or] at hk
    rw [AList.lookup_eq_none.2 fun hd => hk.1 (AList.mem_keys.1 hd),
      AList.lookup_eq_none.2 fun he => hk.2 (AList.mem_keys.1 he)]
    trivial

/-- Two dictionaries are merged correctly if the values of their common keys are. -/
theorem merges_dict_iff (hrefl : ∀ σ a, Q σ a a) (d e : Dict κ α) :
    Merges (fun σ => DictMatches (Q σ)) Γ cond (mergeDict m) d e ↔
      DictMergeable (Merges Q Γ cond m) d e := by
  constructor
  · rintro ⟨out, hout, hsel⟩ k a b ha hb
    have hk := mergeDict_lookup hout k
    rw [ha, hb] at hk
    obtain ⟨z, hz, hlookup⟩ := hk
    refine ⟨z, hz, hsel.mono (fun σ h => ?_) fun σ h => ?_⟩
    · obtain ⟨z', hz', hq⟩ := h k a ha
      cases hlookup.symm.trans hz'
      exact hq
    · obtain ⟨z', hz', hq⟩ := h k b hb
      cases hlookup.symm.trans hz'
      exact hq
  · intro h
    obtain ⟨out, hout⟩ := exists_mergeKeys (m := m) (d := d) (e := e)
      (fun k a b ha hb => (h k a b ha hb).imp fun _ hz => hz.1) (d.keys ++ e.keys) ∅
    refine ⟨out, hout, selects_intro (fun σ hσ hv k a ha => ?_) fun σ hσ hv k b hb => ?_⟩
    · have hk := mergeDict_lookup hout k
      rw [ha] at hk
      cases hb : e.lookup k with
      | none =>
        rw [hb] at hk
        exact ⟨a, hk, hrefl σ a⟩
      | some b =>
        rw [hb] at hk
        obtain ⟨z, hz, hlookup⟩ := hk
        obtain ⟨z', hz', hsel⟩ := h k a b ha hb
        cases hz.symm.trans hz'
        exact ⟨z, hlookup, hsel.left hσ hv⟩
    · have hk := mergeDict_lookup hout k
      rw [hb] at hk
      cases ha : d.lookup k with
      | none =>
        rw [ha] at hk
        exact ⟨b, hk, hrefl σ b⟩
      | some a =>
        rw [ha] at hk
        obtain ⟨z, hz, hlookup⟩ := hk
        obtain ⟨z', hz', hsel⟩ := h k a b ha hb
        cases hz.symm.trans hz'
        exact ⟨z, hlookup, hsel.right hσ hv⟩

theorem mergeList_cons {a b : α} {as bs zs : List α} :
    mergeList m (a :: as) (b :: bs) = .ok zs ↔
      ∃ z zs', m a b = .ok z ∧ mergeList m as bs = .ok zs' ∧ zs = z :: zs' := by
  rw [mergeList, mergeList, List.length_cons, List.length_cons]
  by_cases hlen : as.length = bs.length
  · rw [if_pos (congrArg (· + 1) hlen), if_pos hlen, List.zip_cons_cons, List.mapM_cons,
      bind_eq_ok_iff]
    constructor
    · rintro ⟨z, hz, h⟩
      obtain ⟨zs', hzs', h⟩ := bind_eq_ok_iff.1 h
      cases h
      exact ⟨z, zs', hz, hzs', rfl⟩
    · rintro ⟨z, zs', hz, hzs', rfl⟩
      exact ⟨z, hz, bind_eq_ok_iff.2 ⟨zs', hzs', rfl⟩⟩
  · rw [if_neg (fun h => hlen (Nat.succ.inj h)), if_neg hlen]
    constructor
    · intro h
      cases h
    · rintro ⟨z, zs', -, h, -⟩
      cases h

theorem length_of_mergeList {as bs zs : List α} (h : mergeList m as bs = .ok zs) :
    as.length = bs.length := by
  by_contra hne
  rw [mergeList, if_neg hne] at h
  cases h

/-- Two lists are merged correctly if their elements are. -/
theorem merges_list_iff (as bs : List α) :
    Merges (fun σ => List.Forall₂ (Q σ)) Γ cond (mergeList m) as bs ↔
      List.Forall₂ (Merges Q Γ cond m) as bs := by
  induction as generalizing bs with
  | nil =>
    cases bs with
    | nil => exact ⟨fun _ => .nil, fun _ => ⟨[], rfl, selects_intro (fun _ _ _ => .nil)
        fun _ _ _ => .nil⟩⟩
    | cons b bs =>
      refine ⟨?_, nofun⟩
      rintro ⟨zs, hzs, -⟩
      cases length_of_mergeList hzs
  | cons a as ih =>
    cases bs with
    | nil =>
      refine ⟨?_, nofun⟩
      rintro ⟨zs, hzs, -⟩
      cases length_of_mergeList hzs
    | cons b bs =>
      rw [List.forall₂_cons, ← ih]
      constructor
      · rintro ⟨zs, hzs, hsel⟩
        obtain ⟨z, zs', hz, hzs', rfl⟩ := mergeList_cons.1 hzs
        refine ⟨⟨z, hz, hsel.mono (fun σ h => ?_) fun σ h => ?_⟩,
          zs', hzs', hsel.mono (fun σ h => ?_) fun σ h => ?_⟩
        · exact (List.forall₂_cons.1 h).1
        · exact (List.forall₂_cons.1 h).1
        · exact (List.forall₂_cons.1 h).2
        · exact (List.forall₂_cons.1 h).2
      · rintro ⟨⟨z, hz, hsel⟩, zs', hzs', hsel'⟩
        refine ⟨z :: zs', mergeList_cons.2 ⟨z, zs', hz, hzs', rfl⟩, selects_intro
          (fun σ hσ hv => ?_) fun σ hσ hv => ?_⟩
        · exact .cons (hsel.left hσ hv) (hsel'.left hσ hv)
        · exact .cons (hsel.right hσ hv) (hsel'.right hσ hv)

theorem DictMatches.refl {R : α → α → Prop} (h : ∀ a, R a a) (d : Dict κ α) : DictMatches R d d :=
  fun _ a ha => ⟨a, ha, h a⟩

theorem DictMatches.trans {R : α → α → Prop} (h : ∀ a b c, R a b → R b c → R a c)
    {d e f : Dict κ α} (hde : DictMatches R d e) (hef : DictMatches R e f) : DictMatches R d f := by
  intro k a ha
  obtain ⟨b, hb, hba⟩ := hef k a ha
  obtain ⟨c, hc, hcb⟩ := hde k b hb
  exact ⟨c, hc, h c b a hcb hba⟩

theorem forall₂_trans {R : α → α → Prop} (h : ∀ a b c, R a b → R b c → R a c) {as bs cs : List α}
    (hab : List.Forall₂ R as bs) (hbc : List.Forall₂ R bs cs) : List.Forall₂ R as cs := by
  induction hab generalizing cs with
  | nil => exact hbc
  | cons hr _ ih =>
    cases hbc with
    | cons hr' hbc => exact .cons (h _ _ _ hr hr') (ih hbc)

theorem dictMergeable_congr {R S : α → α → Prop} (h : ∀ a b, R a b ↔ S a b) (d e : Dict κ α) :
    DictMergeable R d e ↔ DictMergeable S d e :=
  forall_congr' fun _ => forall_congr' fun a => forall_congr' fun b => by rw [h a b]

end

/-! ## Scopes -/

/-- Every dictionary of the second scope is matched by that of the first one. -/
structure ScopeMatches (P : Lib) (σ : Env) (out sc : Scope) : Prop where
  globals : DictMatches (Matches P σ) out.globals sc.globals
  locals : List.Forall₂ (DictMatches (Matches P σ)) out.locals sc.locals
  references : DictMatches (DictMatches (Matches P σ)) out.references sc.references

/-- The objects that both scopes have under a name, or in a field, can be merged. -/
structure ScopeMergeable (P : Lib) (Γ : List (Term .bool)) (cond : Term .bool) (c d : Scope) :
    Prop where
  globals : DictMergeable (Mergeable P Γ cond) c.globals d.globals
  locals : List.Forall₂ (DictMergeable (Mergeable P Γ cond)) c.locals d.locals
  references : DictMergeable (DictMergeable (Mergeable P Γ cond)) c.references d.references

theorem ScopeMatches.refl (sc : Scope) : ScopeMatches P σ sc sc where
  globals := .refl Matches.refl _
  locals := List.forall₂_same.2 fun d _ => .refl Matches.refl d
  references := .refl (DictMatches.refl Matches.refl) _

theorem ofExcept_eq_ok {α : Type} {x : Except Exc α} {a : α} {e e' : Ctx} :
    ofExcept x e = .ok a e' ↔ x = .ok a ∧ e = e' := by
  cases x with
  | error =>
    refine ⟨nofun, ?_⟩
    rintro ⟨h, -⟩
    cases h
  | ok b =>
    constructor
    · intro h
      cases h
      exact ⟨rfl, rfl⟩
    · rintro ⟨h, rfl⟩
      cases h
      rfl

theorem modify_eq_ok {f : Ctx → Ctx} {u : Unit} {e e' : Ctx} :
    (modify f : Py Unit) e = .ok u e' ↔ f e = e' := by
  constructor
  · intro h
    cases h
    rfl
  · rintro rfl
    rfl

theorem ScopeMatches.trans {x y z : Scope} (h : ScopeMatches P σ x y) (h' : ScopeMatches P σ y z) :
    ScopeMatches P σ x z := by
  have htrans : ∀ a b c, Matches P σ a b → Matches P σ b c → Matches P σ a c :=
    fun _ _ _ => Matches.trans
  have hdict : ∀ {κ : Type} [DecidableEq κ] (a b c : Dict κ Obj), DictMatches (Matches P σ) a b →
      DictMatches (Matches P σ) b c → DictMatches (Matches P σ) a c :=
    fun _ _ _ h h' => h.trans htrans h'
  exact ⟨hdict _ _ _ h.globals h'.globals, forall₂_trans hdict h.locals h'.locals,
    h.references.trans hdict h'.references⟩

/-- `merge` returns if the three merges do. -/
theorem mergeCtx_eq_ok {c d : Scope} {t : Term .bool} {e e' : Ctx} :
    mergeCtx P t c d e = .ok () e' ↔ ∃ globals locals references,
      mergeDict (If P t) c.globals d.globals = .ok globals ∧
      mergeList (mergeDict (If P t)) c.locals d.locals = .ok locals ∧
      mergeDict (mergeDict (If P t)) c.references d.references = .ok references ∧
      e' = { e with globals, locals, references, accessed := c.accessed.union d.accessed } := by
  unfold mergeCtx
  simp only [Py.bind_eq_ok, ofExcept_eq_ok, modify_eq_ok]
  constructor
  · rintro ⟨globals, _, ⟨hg, rfl⟩, _, _, rfl, locals, _, ⟨hl, rfl⟩, _, _, rfl, references, _,
      ⟨hr, rfl⟩, rfl⟩
    exact ⟨globals, locals, references, hg, hl, hr, rfl⟩
  · rintro ⟨globals, locals, references, hg, hl, hr, rfl⟩
    exact ⟨globals, _, ⟨hg, rfl⟩, (), _, rfl, locals, _, ⟨hl, rfl⟩, (), _, rfl, references, _,
      ⟨hr, rfl⟩, rfl⟩

/-- The scopes of both sides are merged correctly if and only if their objects can be merged. -/
theorem scopeMergeable_iff (h : Undecided Γ cond) (hc : ∀ σ, c.eval σ = cond.eval σ)
    (x y : Scope) (e : Ctx) :
    ScopeMergeable P Γ cond x y ↔ ∃ e', mergeCtx P c x y e = .ok () e' ∧
      SelectedBy (ScopeMatches P) Γ cond e'.toScope x y := by
  have hdict : ∀ {κ : Type} [DecidableEq κ] (d d' : Dict κ Obj),
      DictMergeable (Mergeable P Γ cond) d d' ↔
        Merges (fun σ => DictMatches (Matches P σ)) Γ cond (mergeDict (If P c)) d d' :=
    fun d d' => (dictMergeable_congr (fun a b => mergeable_iff h hc) d d').trans
      (merges_dict_iff (fun σ => Matches.refl) d d').symm
  have hlist : List.Forall₂ (DictMergeable (Mergeable P Γ cond)) x.locals y.locals ↔
      Merges (fun σ => List.Forall₂ (DictMatches (Matches P σ))) Γ cond
        (mergeList (mergeDict (If P c))) x.locals y.locals := by
    rw [merges_list_iff]
    exact ⟨fun h => h.imp fun d d' => (hdict d d').1, fun h => h.imp fun d d' => (hdict d d').2⟩
  have hrefs : DictMergeable (DictMergeable (Mergeable P Γ cond)) x.references y.references ↔
      Merges (fun σ => DictMatches (DictMatches (Matches P σ))) Γ cond
        (mergeDict (mergeDict (If P c))) x.references y.references :=
    (dictMergeable_congr hdict _ _).trans
      (merges_dict_iff (fun σ => DictMatches.refl Matches.refl) _ _).symm
  constructor
  · rintro ⟨hglobals, hlocals, hreferences⟩
    obtain ⟨globals, hg, hgsel⟩ := (hdict _ _).1 hglobals
    obtain ⟨locals, hl, hlsel⟩ := hlist.1 hlocals
    obtain ⟨references, hr, hrsel⟩ := hrefs.1 hreferences
    refine ⟨_, mergeCtx_eq_ok.2 ⟨globals, locals, references, hg, hl, hr, rfl⟩, selects_intro
      (fun σ hσ hv => ?_) fun σ hσ hv => ?_⟩
    · exact ⟨hgsel.left hσ hv, hlsel.left hσ hv, hrsel.left hσ hv⟩
    · exact ⟨hgsel.right hσ hv, hlsel.right hσ hv, hrsel.right hσ hv⟩
  · rintro ⟨e', he', hsel⟩
    obtain ⟨globals, locals, references, hg, hl, hr, rfl⟩ := mergeCtx_eq_ok.1 he'
    refine ⟨(hdict _ _).2 ⟨globals, hg, ?_⟩, hlist.2 ⟨locals, hl, ?_⟩,
      hrefs.2 ⟨references, hr, ?_⟩⟩
    · exact hsel.mono (fun _ h => h.globals) fun _ h => h.globals
    · exact hsel.mono (fun _ h => h.locals) fun _ h => h.locals
    · exact hsel.mono (fun _ h => h.references) fun _ h => h.references

end L4Thread.Irpy
