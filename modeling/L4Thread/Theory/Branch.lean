import L4Thread.Theory.Merge
import L4Thread.Theory.PathCondition

/-!
# Soundness of branches

A branch is sound if it returns whenever its bodies do, and if the merged context and the value it
returns evaluate to those of the body that the condition selects, under every assignment that
satisfies the assertions of the solver. This is the case if and only if what both bodies leave can be
merged.
-/

namespace L4Thread.Irpy

open Smt

variable {P : Lib} {σ : Env} {c : Ctx} {s : Term .bool} {iftrue iffalse : Py (Option Obj)}

/-! ## The bodies -/

/-- The condition of a branch as a Boolean. -/
def Value.truth : Value → Term .bool
  | ⟨.bool, t⟩ => t
  | ⟨.bv w, t⟩ => .eq t (.lit (1 : BitVec w))
  | ⟨.args, _⟩ => .lit false

/-- The body of a true condition is evaluated. -/
def canBeTrue (P : Lib) (c : Ctx) (s : Term .bool) : Bool :=
  !s.isLit false && !P.implies c.assertions (.not s)

def canBeFalse (P : Lib) (c : Ctx) (s : Term .bool) : Bool :=
  !canBeTrue P c s || (!s.isLit true && !P.implies c.assertions s)

/-- The bodies that are evaluated return, one behind the other, with these values and contexts. -/
structure BodiesReturn (P : Lib) (c : Ctx) (s : Term .bool) (iftrue iffalse : Py (Option Obj))
    (v₁ : Option Obj) (d₁ : Ctx) (v₂ : Option Obj) (d₂ : Ctx) : Prop where
  iftrue : canBeTrue P c s → iftrue (c.push s) = .ok v₁ d₁
  iffalse : canBeFalse P c s →
    iffalse ((if canBeTrue P c s then d₁.pop.2 else c).push (.not s)) = .ok v₂ d₂

/-- A scope and the value of a body. -/
abbrev Result := Scope × Option Obj

/-- The first result evaluates to what the second one does. -/
structure ResultMatches (P : Lib) (σ : Env) (x y : Result) : Prop where
  scope : ScopeMatches P σ x.1 y.1
  value : Option.Rel (Matches P σ) x.2 y.2

/-- The branch returns, and what it leaves evaluates to what the selected body leaves. -/
def BranchSound (P : Lib) (c : Ctx) (cond : Value) (iftrue iffalse : Py (Option Obj)) : Prop :=
  ∀ v₁ d₁ v₂ d₂, BodiesReturn P c (P.simplify cond.truth) iftrue iffalse v₁ d₁ v₂ d₂ →
    ∃ v d, branch P cond (.int 1) iftrue iffalse c = .ok v d ∧
      SelectedBy (ResultMatches P) c.assertions cond.truth (d.toScope, v) (d₁.toScope, v₁)
        (d₂.toScope, v₂)

/-- The condition is a Boolean that is not poison, and if both bodies are evaluated, then what they
leave can be merged. -/
def BranchMergeable (P : Lib) (c : Ctx) (cond : Value) (iftrue iffalse : Py (Option Obj)) : Prop :=
  ∀ v₁ d₁ v₂ d₂, BodiesReturn P c (P.simplify cond.truth) iftrue iffalse v₁ d₁ v₂ d₂ →
    cond.sort = .bool ∧ ¬isPoison cond.term ∧
      (canBeTrue P c (P.simplify cond.truth) → canBeFalse P c (P.simplify cond.truth) →
        ScopeMergeable P c.assertions cond.truth d₁.toScope d₂.toScope ∧
          Option.Rel (Mergeable P c.assertions cond.truth) v₁ v₂)

/-! ## What a branch does -/

theorem pop_fst (d : Ctx) : d.pop.1 = d.toScope := by
  unfold Ctx.pop
  split <;> rfl

theorem runBody_eq_ok {t : Term .bool} {body : Py (Option Obj)} {v : Option Obj} {d : Ctx}
    (h : body (c.push t) = .ok v d) : runBody P t body c = .ok (.returned v, d.toScope) d.pop.2 := by
  have hpush : (modify fun c : Ctx => c.push t : Py Unit) c = .ok () (c.push t) := rfl
  have htry : ∀ handler : Exc → Py Outcome,
      (tryCatch (do let v ← body; pure (Outcome.returned v)) handler : Py Outcome) (c.push t) =
        .ok (.returned v) d := by
    intro handler
    show EStateM.tryCatch _ _ _ = _
    unfold EStateM.tryCatch
    rw [Py.bind_apply, h]
    rfl
  rw [runBody, Py.bind_apply, hpush]
  dsimp only
  rw [Py.bind_apply, htry, ← pop_fst d]
  rfl

theorem branch_eq {t : Term .bool} {v₁ v₂ : Option Obj} {d₁ d₂ : Ctx} (hp : ¬isPoison t)
    (h : BodiesReturn P c (P.simplify t) iftrue iffalse v₁ d₁ v₂ d₂) :
    branch P ⟨.bool, t⟩ (.int 1) iftrue iffalse c =
      if canBeTrue P c (P.simplify t) then
        if canBeFalse P c (P.simplify t) then
          mergeBranch P t (P.simplify t) (.returned v₁, d₁.toScope) (.returned v₂, d₂.toScope)
            d₂.pop.2
        else finishBranch (.returned v₁) d₁.toScope d₁.pop.2
      else finishBranch (.returned v₂) d₂.toScope d₂.pop.2 := by
  have hcheck : (!isPoison t) = true := by simpa using hp
  have hmap : ∀ {u : Term .bool} {body : Py (Option Obj)} {v : Option Obj} {d e : Ctx},
      body (e.push u) = .ok v d →
        (some <$> runBody P u body) e = .ok (some (.returned v, d.toScope)) d.pop.2 := by
    intro u body v d e hb
    rw [← bind_pure_comp, Py.bind_apply, runBody_eq_ok hb]
    rfl
  rw [branch, Py.check_bind, if_pos hcheck]
  simp only [integerSize, pure_bind, boolTerm, Py.ofExcept_ok_bind, Py.check_bind,
    Py.pathConditionImplies_bind, beq_self_eq_true, if_true]
  have htrue : (!(P.simplify t).isLit false && !P.implies c.assertions (P.simplify t).not) =
    canBeTrue P c (P.simplify t) := rfl
  have hfalse : (!canBeTrue P c (P.simplify t) || !(P.simplify t).isLit true &&
    !P.implies c.assertions (P.simplify t)) = canBeFalse P c (P.simplify t) := rfl
  rw [htrue, hfalse]
  cases ht : canBeTrue P c (P.simplify t) with
  | false =>
    have hf : canBeFalse P c (P.simplify t) = true := by rw [canBeFalse, ht]; rfl
    have hbody := h.iffalse hf
    rw [ht, if_neg Bool.false_ne_true] at hbody
    rw [hf]
    simp only [Bool.false_eq_true, if_false, if_true]
    rw [Py.bind_apply, hmap hbody]
  | true =>
    have hbody := h.iftrue ht
    simp only [if_true]
    rw [Py.bind_apply, hmap hbody]
    cases hf : canBeFalse P c (P.simplify t) with
    | false =>
      simp only [Bool.false_eq_true, if_false]
    | true =>
      have hbody' := h.iffalse hf
      rw [ht, if_pos rfl] at hbody'
      simp only [if_true]
      rw [Py.bind_apply, hmap hbody']

/-- The condition under the assertions, as the solver decides it. -/
theorem eval_eq_false_of_not_canBeTrue (h : canBeTrue P c s = false) (hσ : Holds σ c.assertions) :
    s.eval σ = false := by
  rw [canBeTrue, Bool.and_eq_false_iff, Bool.not_eq_false', Bool.not_eq_false'] at h
  rcases h with hlit | himp
  · rw [Term.eq_lit_of_isLit hlit, Term.eval_lit]
  · have hnot := P.implies_iff.1 himp σ hσ
    rw [Term.eval_not] at hnot
    simpa using hnot

theorem eval_eq_true_of_not_canBeFalse (h : canBeFalse P c s = false)
    (hσ : Holds σ c.assertions) : s.eval σ = true := by
  simp only [canBeFalse, Bool.or_eq_false_iff, Bool.and_eq_false_iff, Bool.not_eq_false'] at h
  rcases h.2 with hlit | himp
  · rw [Term.eq_lit_of_isLit hlit, Term.eval_lit]
  · exact P.implies_iff.1 himp σ hσ

theorem exists_of_not_implies {Γ : List (Term .bool)} (h : P.implies Γ s = false) :
    ∃ σ, Holds σ Γ ∧ s.eval σ = false := by
  by_contra hn
  have himp : P.implies Γ s = true := P.implies_iff.2 fun σ hσ => by
    by_contra hs
    exact hn ⟨σ, hσ, Bool.eq_false_iff.2 hs⟩
  cases h.symm.trans himp

theorem undecided_of_canBe {t : Term .bool} (ht : canBeTrue P c (P.simplify t) = true)
    (hf : canBeFalse P c (P.simplify t) = true) : Undecided c.assertions t := by
  rw [canBeFalse, ht, Bool.not_true, Bool.false_or, Bool.and_eq_true, Bool.not_eq_true',
    Bool.not_eq_true'] at hf
  rw [canBeTrue, Bool.and_eq_true, Bool.not_eq_true', Bool.not_eq_true'] at ht
  constructor
  · obtain ⟨σ, hσ, hv⟩ := exists_of_not_implies ht.2
    rw [Term.eval_not, P.eval_simplify] at hv
    exact ⟨σ, hσ, by simpa using hv⟩
  · obtain ⟨σ, hσ, hv⟩ := exists_of_not_implies hf.2
    rw [P.eval_simplify] at hv
    exact ⟨σ, hσ, hv⟩

/-- The merge of two values that bodies return. -/
def mergeValue (m : Obj → Obj → Except Exc Obj) : Option Obj → Option Obj → Except Exc (Option Obj)
  | none, none => .ok none
  | some a, some b => do return some (← m a b)
  | some _, none => .error .z3
  | none, some _ => .error .assertion

theorem mergeBranch_eq (t s : Term .bool) (v₁ v₂ : Option Obj) (sc₁ sc₂ : Scope) :
    mergeBranch P t s (.returned v₁, sc₁) (.returned v₂, sc₂) =
      (mergeCtx P s sc₁ sc₂ >>= fun _ => ofExcept (mergeValue (If P t) v₁ v₂)) := by
  rw [mergeBranch]
  congr 1
  funext _
  cases v₁ with
  | none =>
    cases v₂ with
    | none => rfl
    | some b => rfl
  | some a =>
    cases v₂ with
    | none => rfl
    | some b =>
      rw [mergeValue]
      dsimp only
      cases If P t a b with
      | error => rfl
      | ok => rfl

theorem merges_value_iff {Γ : List (Term .bool)} {cond : Term .bool} {Q : Env → Obj → Obj → Prop}
    {m : Obj → Obj → Except Exc Obj} (x y : Option Obj) :
    Merges (fun σ => Option.Rel (Q σ)) Γ cond (mergeValue m) x y ↔
      Option.Rel (Merges Q Γ cond m) x y := by
  cases x with
  | none =>
    cases y with
    | none => exact ⟨fun _ => .none, fun _ => ⟨none, rfl, selects_intro (fun _ _ _ => .none)
        fun _ _ _ => .none⟩⟩
    | some b =>
      refine ⟨?_, nofun⟩
      rintro ⟨z, hz, -⟩
      cases hz
  | some a =>
    cases y with
    | none =>
      refine ⟨?_, nofun⟩
      rintro ⟨z, hz, -⟩
      cases hz
    | some b =>
      constructor
      · rintro ⟨z, hz, hsel⟩
        obtain ⟨w, hw, h⟩ := bind_eq_ok_iff.1 hz
        cases h
        refine .some ⟨w, hw, hsel.mono (fun σ h => ?_) fun σ h => ?_⟩
        · cases h with
          | some h => exact h
        · cases h with
          | some h => exact h
      · intro h
        cases h with
        | some h =>
          obtain ⟨w, hw, hsel⟩ := h
          exact ⟨some w, bind_eq_ok_iff.2 ⟨w, hw, rfl⟩,
            hsel.mono (fun _ => .some) fun _ => .some⟩

theorem rel_congr {R S : Obj → Obj → Prop} (h : ∀ a b, R a b ↔ S a b) {x y : Option Obj} :
    Option.Rel R x y ↔ Option.Rel S x y := by
  constructor
  · rintro (h' | _)
    · exact .some ((h _ _).1 h')
    · exact .none
  · rintro (h' | _)
    · exact .some ((h _ _).2 h')
    · exact .none

theorem ResultMatches.refl (x : Result) : ResultMatches P σ x x where
  scope := .refl x.1
  value := by
    obtain ⟨sc, v⟩ := x
    cases v with
    | none => exact .none
    | some a => exact .some (.refl a)

theorem ResultMatches.trans {x y z : Result} (h : ResultMatches P σ x y)
    (h' : ResultMatches P σ y z) : ResultMatches P σ x z where
  scope := h.scope.trans h'.scope
  value := by
    have hv := h.value
    have hv' := h'.value
    generalize x.2 = a, y.2 = b, z.2 = c at hv hv'
    cases hv with
    | none => exact hv'
    | some hab =>
      cases hv' with
      | some hbc => exact .some (hab.trans hbc)

/-- Both bodies are evaluated. -/
theorem merged_iff {t : Term .bool} {v₁ v₂ : Option Obj} {sc₁ sc₂ : Scope} {e : Ctx}
    (h : Undecided c.assertions t) :
    (ScopeMergeable P c.assertions t sc₁ sc₂ ∧ Option.Rel (Mergeable P c.assertions t) v₁ v₂) ↔
      ∃ v d, mergeBranch P t (P.simplify t) (.returned v₁, sc₁) (.returned v₂, sc₂) e = .ok v d ∧
        SelectedBy (ResultMatches P) c.assertions t (d.toScope, v) (sc₁, v₁) (sc₂, v₂) := by
  have hvalue : Option.Rel (Mergeable P c.assertions t) v₁ v₂ ↔
      Merges (fun σ => Option.Rel (Matches P σ)) c.assertions t (mergeValue (If P t)) v₁ v₂ := by
    rw [merges_value_iff]
    exact rel_congr fun a b => mergeable_iff h fun _ => rfl
  rw [scopeMergeable_iff h (fun σ => P.eval_simplify t σ) sc₁ sc₂ e, hvalue, mergeBranch_eq]
  constructor
  · rintro ⟨⟨d, hd, hscope⟩, v, hv, hval⟩
    refine ⟨v, d, Py.bind_eq_ok.2 ⟨(), d, hd, ofExcept_eq_ok.2 ⟨hv, rfl⟩⟩, selects_intro
      (fun σ hσ hc => ?_) fun σ hσ hc => ?_⟩
    · exact ⟨hscope.left hσ hc, hval.left hσ hc⟩
    · exact ⟨hscope.right hσ hc, hval.right hσ hc⟩
  · rintro ⟨v, d, hrun, hsel⟩
    obtain ⟨_, d', hd, hval⟩ := Py.bind_eq_ok.1 hrun
    obtain ⟨hv, rfl⟩ := ofExcept_eq_ok.1 hval
    exact ⟨⟨_, hd, hsel.mono (fun _ h => h.scope) fun _ h => h.scope⟩, v, hv,
      hsel.mono (fun _ h => h.value) fun _ h => h.value⟩

/-- A branch is sound if and only if its condition is a Boolean that is not poison and what the
bodies leave can be merged. -/
theorem sound_iff_mergeable (P : Lib) (c : Ctx) (cond : Value) (iftrue iffalse : Py (Option Obj)) :
    BranchSound P c cond iftrue iffalse ↔ BranchMergeable P c cond iftrue iffalse := by
  refine forall_congr' fun v₁ => forall_congr' fun d₁ => forall_congr' fun v₂ =>
    forall_congr' fun d₂ => forall_congr' fun h => ?_
  by_cases hbool : cond.sort = .bool ∧ ¬isPoison cond.term
  · obtain ⟨sort, t⟩ := cond
    obtain ⟨rfl, hp⟩ := hbool
    change BodiesReturn P c (P.simplify t) iftrue iffalse v₁ d₁ v₂ d₂ at h
    rw [branch_eq hp h]
    change _ ↔ _ ∧ _ ∧ (canBeTrue P c (P.simplify t) = true →
      canBeFalse P c (P.simplify t) = true → _)
    cases ht : canBeTrue P c (P.simplify t) with
    | false =>
      refine ⟨fun _ => ⟨rfl, hp, nofun⟩, fun _ => ⟨v₂, d₂.pop.2.restore d₂.toScope, rfl, ?_⟩⟩
      refine selects_intro (fun σ hσ hv => ?_) fun σ hσ hv => .refl _
      have hfalse := eval_eq_false_of_not_canBeTrue ht hσ
      rw [P.eval_simplify] at hfalse
      cases hv.symm.trans hfalse
    | true =>
      cases hf : canBeFalse P c (P.simplify t) with
      | false =>
        refine ⟨fun _ => ⟨rfl, hp, nofun⟩, fun _ => ⟨v₁, d₁.pop.2.restore d₁.toScope, rfl, ?_⟩⟩
        refine selects_intro (fun σ hσ hv => .refl _) fun σ hσ hv => ?_
        have htrue := eval_eq_true_of_not_canBeFalse hf hσ
        rw [P.eval_simplify] at htrue
        cases hv.symm.trans htrue
      | true =>
        refine Iff.trans (merged_iff (undecided_of_canBe ht hf)).symm ?_
        exact ⟨fun h => ⟨rfl, hp, fun _ _ => h⟩, fun h => h.2.2 rfl rfl⟩
  · -- the evaluation fails before any body is evaluated
    refine ⟨?_, fun h => absurd ⟨h.1, h.2.1⟩ hbool⟩
    rintro ⟨v, d, hrun, -⟩
    rw [branch, Py.check_bind] at hrun
    split at hrun
    · rename_i hcheck
      have hp : ¬isPoison cond.term := by simpa using hcheck
      obtain ⟨sort, t⟩ := cond
      cases sort with
      | bool => exact absurd ⟨rfl, hp⟩ hbool
      | bv w => cases hrun
      | args => cases hrun
    · cases hrun

/-! ## Switches -/

/-- The cases of a `switch`. -/
abbrev Cases := List (Value × Ty × Py (Option Obj))

/-- The comparison of the value with that of a case. -/
def caseTerm (value v : Value) : Value :=
  if h : v.sort = value.sort then ⟨.bool, .eq value.term (h ▸ v.term)⟩ else ⟨.args, .nil⟩

/-- The context that the cases behind this one are evaluated in. -/
def restCtx (P : Lib) (c : Ctx) (s : Term .bool) (d : Ctx) : Ctx :=
  (if canBeTrue P c s then d.pop.2 else c).push (.not s)

/-- The bodies of a `switch` that are evaluated return, and `R` is what the selected one leaves. -/
inductive SwitchReturns (P : Lib) (value : Value) (default : Py (Option Obj)) :
    Cases → Ctx → (Env → Result) → Prop
  | nil {c d : Ctx} {v : Option Obj} (h : default c = .ok v d) :
    SwitchReturns P value default [] c fun _ => (d.toScope, v)
  | cons {c d : Ctx} {v : Value} {t : Ty} {body : Py (Option Obj)} {cases : Cases}
    {o : Option Obj} {R : Env → Result}
    (hbody : canBeTrue P c (P.simplify (caseTerm value v).truth) →
      body (c.push (P.simplify (caseTerm value v).truth)) = .ok o d)
    (hrest : canBeFalse P c (P.simplify (caseTerm value v).truth) →
      SwitchReturns P value default cases
        (restCtx P c (P.simplify (caseTerm value v).truth) d) R) :
    SwitchReturns P value default ((v, t, body) :: cases) c fun σ =>
      if (caseTerm value v).truth.eval σ = true then (d.toScope, o) else R σ

/-- The `switch` returns, and what it leaves evaluates to what the selected body leaves. -/
def SwitchSound (P : Lib) (c : Ctx) (value : Value) (type : Ty) (default : Py (Option Obj))
    (cases : Cases) : Prop :=
  ∀ R, SwitchReturns P value default cases c R →
    ∃ v d, switch P value type default cases c = .ok v d ∧
      ∀ σ, Holds σ c.assertions → ResultMatches P σ (d.toScope, v) (R σ)

/-- The values are of the type of the `switch`, and what the body of each case and the cases behind
it leave can be merged. -/
def SwitchMergeable (P : Lib) (value : Value) (type : Ty) (default : Py (Option Obj)) :
    Cases → Ctx → Prop
  | [], _ => True
  | (v, t, body) :: cases, c =>
    type.eq t ∧ value.sort = v.sort ∧
      BranchMergeable P c (caseTerm value v) body (switch P value type default cases) ∧
      ∀ o d, (canBeTrue P c (P.simplify (caseTerm value v).truth) →
          body (c.push (P.simplify (caseTerm value v).truth)) = .ok o d) →
        canBeFalse P c (P.simplify (caseTerm value v).truth) →
          SwitchMergeable P value type default cases
            (restCtx P c (P.simplify (caseTerm value v).truth) d)

/-- An evaluation leaves the solver as it was, up to assumptions. -/
theorem Traced.pop_solver {body : Py (Option Obj)} (h : Traced P body) {t : Term .bool}
    {v : Option Obj} {d : Ctx} (hd : body (c.push t) = .ok v d) : d.pop.2.solver = c.solver := by
  obtain ⟨as, has⟩ := h (c.push t)
  obtain ⟨⟨ps, hps, -⟩⟩ := acts_grow (P := P) as (c.push t)
  rw [← has, Py.after, hd] at hps
  exact (extends_pop hps).1.solver

theorem switch_cons {value v : Value} {type t : Ty} {default body : Py (Option Obj)}
    {cases : Cases} (htype : type.eq t = true) (hsort : value.sort = v.sort) (c : Ctx) :
    switch P value type default ((v, t, body) :: cases) c =
      branch P (caseTerm value v) (.int 1) body (switch P value type default cases) c := by
  rw [switch, Py.check_bind, if_pos htype, eqTerm, dif_pos hsort.symm, caseTerm, dif_pos hsort.symm]
  rfl

/-- Where the case is not the selected one, the assertions that the cases behind it are evaluated
under hold. -/
theorem holds_restCtx {body : Py (Option Obj)} (h : Traced P body) {o : Option Obj} {d : Ctx}
    (hbody : canBeTrue P c s → body (c.push s) = .ok o d) (hσ : Holds σ c.assertions)
    (hs : s.eval σ = false) : Holds σ (restCtx P c s d).assertions := by
  have hsolver : (if canBeTrue P c s then d.pop.2 else c).solver = c.solver := by
    split
    · rename_i ht
      exact h.pop_solver (hbody ht)
    · rfl
  have hpush : (restCtx P c s d).assertions = .not s :: c.assertions := by
    rw [Ctx.assertions, Ctx.assertions, ← hsolver]
    rfl
  rw [hpush]
  refine List.forall_mem_cons.2 ⟨?_, hσ⟩
  rw [Term.eval_not, hs]
  rfl

/-- By induction on the cases: what the cases behind the first one leave is what the other body of a
branch leaves. -/
theorem switchSound_of_mergeable (value : Value) (type : Ty) (default : Py (Option Obj))
    (cases : Cases) (htraced : ∀ x ∈ cases, Traced P x.2.2) (c : Ctx)
    (h : SwitchMergeable P value type default cases c) :
    SwitchSound P c value type default cases := by
  induction cases generalizing c with
  | nil =>
    intro R hR
    cases hR with
    | nil hd => exact ⟨_, _, hd, fun σ _ => .refl _⟩
  | cons x cases ih =>
    obtain ⟨v, t, body⟩ := x
    obtain ⟨htype, hsort, hmerge, hrest⟩ := h
    have hbodyTraced := htraced _ (List.mem_cons_self ..)
    intro R hR
    cases hR with
    | @cons _ d₁ _ _ _ _ o₁ R hbody hreturns =>
      -- the cases behind the first one, if they are evaluated at all
      have hinner : ∃ o₂ d₂, ∀ _ : canBeFalse P c (P.simplify (caseTerm value v).truth) = true,
          switch P value type default cases
              (restCtx P c (P.simplify (caseTerm value v).truth) d₁) = .ok o₂ d₂ ∧
            ∀ σ, Holds σ (restCtx P c (P.simplify (caseTerm value v).truth) d₁).assertions →
              ResultMatches P σ (d₂.toScope, o₂) (R σ) := by
        by_cases hf : canBeFalse P c (P.simplify (caseTerm value v).truth) = true
        · obtain ⟨o₂, d₂, hrun, hsel⟩ := ih (fun x hx => htraced x (List.mem_cons_of_mem _ hx)) _
            (hrest o₁ d₁ hbody hf) R (hreturns hf)
          exact ⟨o₂, d₂, fun _ => ⟨hrun, hsel⟩⟩
        · exact ⟨none, c, fun h => absurd h hf⟩
      obtain ⟨o₂, d₂, hinner⟩ := hinner
      obtain ⟨o, d, hrun, hsel⟩ := (sound_iff_mergeable P c _ _ _).2 hmerge o₁ d₁ o₂ d₂
        ⟨hbody, fun hf => (hinner hf).1⟩
      refine ⟨o, d, (switch_cons htype hsort c).trans hrun, fun σ hσ => ?_⟩
      cases hc : (caseTerm value v).truth.eval σ with
      | true =>
        show ResultMatches P σ _ (if _ then _ else _)
        rw [if_pos hc]
        exact hsel.left hσ hc
      | false =>
        have hs : (P.simplify (caseTerm value v).truth).eval σ = false :=
          (P.eval_simplify _ σ).trans hc
        have hf : canBeFalse P c (P.simplify (caseTerm value v).truth) = true := by
          by_contra hf
          cases hs.symm.trans (eval_eq_true_of_not_canBeFalse (Bool.eq_false_iff.2 hf) hσ)
        show ResultMatches P σ _ (if _ then _ else _)
        rw [if_neg (Bool.eq_false_iff.1 hc)]
        exact (hsel.right hσ hc).trans ((hinner hf).2 σ (holds_restCtx hbodyTraced hbody hσ hs))

/-- A branch is sound if and only if its condition is a Boolean that is not poison and what the
bodies leave can be merged; a `switch` is sound if this is so for each of its cases and what is
behind it. -/
theorem branch_sound_iff (P : Lib) :
    (∀ c cond iftrue iffalse,
      BranchSound P c cond iftrue iffalse ↔ BranchMergeable P c cond iftrue iffalse) ∧
    ∀ c value type default cases, (∀ x ∈ cases, Traced P x.2.2) →
      SwitchMergeable P value type default cases c → SwitchSound P c value type default cases :=
  ⟨sound_iff_mergeable P, fun c value type default cases htraced h =>
    switchSound_of_mergeable value type default cases htraced c h⟩

/-- A pointer variable. -/
def pointerVar : Reference := ⟨"@p", .pointer (.pointer (.int 8))⟩

/-- The context with the variable, which nothing has been written to. -/
def pointerCtx : Ctx :=
  let fields : Dict (List Nat) Obj := (∅ : Dict (List Nat) Obj).insert [] (.decl "@p" 1 (.bv 64))
  { Ctx.new with references := (∅ : Dict String (Dict (List Nat) Obj)).insert "@p" fields }

def pointerX : Pointer := .base ⟨"@x", .pointer (.int 8)⟩ [] (.pointer (.int 8))

/-- The store of a pointer to the variable. -/
def storePointer (P : Lib) : Py (Option Obj) := do
  store P .void (.ptr pointerX) (.pointer (.int 8)) (.ptr (.base pointerVar [] pointerVar.type))
    pointerVar.type
  return none

theorem storePointer_eq_ok (c : Ctx) (hc : c.references = pointerCtx.references) :
    ∃ d, storePointer Lib.ideal c = .ok none d ∧
      ∃ fields, d.references.lookup "@p" = some fields ∧ fields.lookup [] = some (.update
        (.decl "@p" 1 (.bv 64)) [.bvVal 64 0] (.ptr pointerX)) := by
  have hzero : Lib.ideal.implies c.assertions
      (.eq (.lit (BitVec.ofNat 64 0) : Term (.bv 64)) (.lit (0 : BitVec 64))) = true :=
    Lib.ideal.implies_iff.2 fun σ _ => (Term.eval_eq_iff ..).2 rfl
  have hpath : buildFieldTupleAndPath Lib.ideal pointerVar.type [.bvVal 64 0] c =
      .ok ([], [.bvVal 64 0]) c := by
    have hindex : indexZero (.bvVal 64 0) =
      .ok (.eq (.lit (BitVec.ofNat 64 0) : Term (.bv 64)) (.lit (0 : BitVec 64))) := rfl
    rw [pointerVar, buildFieldTupleAndPath, hindex, Py.ofExcept_ok_bind,
      Py.pathConditionImplies_bind, hzero]
    rfl
  have hfields : fieldFunction pointerVar [] c = .ok (.decl "@p" 1 (.bv 64)) c := by
    rw [fieldFunction, Py.get_bind, hc]
    rfl
  have hwrite : ∀ v, pointerVar.write Lib.ideal [.bvVal 64 0] v c = .ok ()
      { c with
        references := c.references.insert "@p" (((c.references.lookup "@p").getD ∅).insert []
          (.update (.decl "@p" 1 (.bv 64)) [.bvVal 64 0] v))
        accessed := c.accessed.insert "@p" } := by
    intro v
    rw [Reference.write, Py.bind_apply, hpath]
    dsimp only
    rw [Py.bind_apply, hfields]
    rfl
  have hstore : ∀ v, (store Lib.ideal .void v (.pointer (.int 8))
      (.ptr (.base pointerVar [] pointerVar.type)) pointerVar.type) c =
        pointerVar.write Lib.ideal [.bvVal 64 0] v c := by
    intro v
    show (pointerVar.write Lib.ideal [.bvVal 64 0] v >>= fun _ => pure ()) c = _
    rw [Py.bind_apply, hwrite]
    rfl
  obtain ⟨d, hd, hlookup⟩ : ∃ d, pointerVar.write Lib.ideal [.bvVal 64 0] (.ptr pointerX) c = .ok () d ∧
      ∃ fields, d.references.lookup "@p" = some fields ∧ fields.lookup [] = some (.update
        (.decl "@p" 1 (.bv 64)) [.bvVal 64 0] (.ptr pointerX)) :=
    ⟨_, hwrite _, _, AList.lookup_insert _, AList.lookup_insert _⟩
  refine ⟨d, ?_, hlookup⟩
  rw [storePointer, Py.bind_apply, hstore, hd]
  rfl

/-- Every Boolean has the value. -/
def boolEnv (v : Bool) : Env where
  var _ s := match s with
    | .bool => v
    | _ => default
  fn _ _ _ := default

/-- A condition that nothing is known of can be true and can be false. -/
theorem canBe_var (c : Ctx) (hc : c.assertions = []) :
    canBeTrue Lib.ideal c (.var "b" .bool) = true ∧ canBeFalse Lib.ideal c (.var "b" .bool) = true := by
  have himp : ∀ (t : Term .bool) (v : Bool), t.eval (boolEnv v) = false →
      Lib.ideal.implies c.assertions t = false := by
    intro t v ht
    rw [Bool.eq_false_iff]
    intro h
    rw [hc] at h
    cases ht.symm.trans (Lib.ideal.implies_iff.1 h (boolEnv v) fun _ hmem => by cases hmem)
  have hnot : Lib.ideal.implies c.assertions (.not (.var "b" .bool)) = false := by
    refine himp _ true ?_
    rw [Term.eval_not, Term.eval]
    rfl
  have hvar : Lib.ideal.implies c.assertions (.var "b" .bool) = false := by
    refine himp _ false ?_
    rw [Term.eval]
    rfl
  rw [canBeFalse, canBeTrue, hnot, hvar]
  exact ⟨rfl, rfl⟩

/-- A field is written by the second body only: it is a word on one side and a pointer on the other
one, and reading it behind the branch raises an exception. -/
theorem storePointer_not_branchSound :
    ¬BranchSound Lib.ideal pointerCtx ⟨.bool, .var "b" .bool⟩ (pure none)
      (storePointer Lib.ideal) := by
  rw [sound_iff_mergeable]
  intro h
  obtain ⟨ht, hf⟩ := canBe_var pointerCtx rfl
  let d₁ := pointerCtx.push (.var "b" .bool)
  obtain ⟨d₂, hd₂, fields, hfields, hlookup⟩ :=
    storePointer_eq_ok (d₁.pop.2.push (.not (.var "b" .bool))) rfl
  have hbodies : BodiesReturn Lib.ideal pointerCtx (.var "b" .bool) (pure none)
      (storePointer Lib.ideal) none d₁ none d₂ := by
    refine ⟨fun _ => rfl, fun _ => ?_⟩
    rw [ht]
    exact hd₂
  obtain ⟨-, -, hmerge⟩ := h none d₁ none d₂ hbodies
  have hfield := (hmerge ht hf).1.references "@p" _ fields rfl hfields [] _ _ rfl hlookup
  have hdistinct : definitelyEqual Lib.ideal (.decl "@p" 1 (.bv 64))
      (.update (.decl "@p" 1 (.bv 64)) [.bvVal 64 0] (.ptr pointerX)) = .ok false := rfl
  have hword : ∀ q v, ¬Mergeable Lib.ideal pointerCtx.assertions (.var "b" .bool) (.expr v)
      (.ptr q) := by
    intro q v hm
    cases hm with
    | same h => cases h
    | function hf => cases hf
  cases hfield with
  | same h => cases hdistinct.symm.trans h
  | function _ _ _ _ h =>
    obtain ⟨v, hv⟩ : ∃ v, (Obj.decl "@p" 1 (.bv 64)).apply Lib.ideal [.bvVal 64 0] =
        .ok (.expr v) := ⟨_, rfl⟩
    obtain ⟨q, hq⟩ : ∃ q, (Obj.update (.decl "@p" 1 (.bv 64)) [.bvVal 64 0] (.ptr pointerX)).apply
        Lib.ideal [.bvVal 64 0] = .ok (.ptr q) := ⟨_, rfl⟩
    exact hword q v (h _ _ _ hv hq)

end L4Thread.Irpy
