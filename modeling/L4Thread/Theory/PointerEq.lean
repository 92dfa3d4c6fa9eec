import L4Thread.Theory.Symbolic

/-!
# Comparison of pointers

The pointers that an evaluation builds, what they denote under an assignment, and when `eq` and `ne`
tell whether two of them denote the same.
-/

namespace L4Thread.Irpy

open Smt

namespace Pointer

variable (P : Lib)

/-- The pointers that an evaluation builds: fresh ones, null, those that `getelementptr` gives and
those that are selected by a condition. -/
inductive Built : Pointer → Prop
  | fresh {name type c p d} : freshPtr P name type c = .ok p d → Built p
  | null (type : Ty) : Built (constantPointerNull type)
  | gep {p idxs type c q d} : Built p → p.getelementptr P idxs type c = .ok q d → Built q
  | ite {p q cond r} : Built p → Built q → p.iteObj P (.ptr q) cond = .ok r → Built r

/-- The name of a conditional pointer has the value of the name of the selected one. -/
def Named : Pointer → Prop
  | ite cond p q n _ =>
    p.Named ∧ q.Named ∧
      ∀ σ, n.eval σ = if cond.eval σ = true then (p.name P).eval σ else (q.name P).eval σ
  | _ => True

/-- The pointer that the conditions select. -/
def arm (σ : Env) : Pointer → Pointer
  | ite cond p q _ _ => if cond.eval σ = true then p.arm σ else q.arm σ
  | p => p

section

variable {σ : Env} {ref : Reference} {geps : Geps} {cond : Term .bool} {p q : Pointer}
  {n : Term (.bv 64)} {t : Ty}

theorem arm_base : (base ref geps t).arm σ = base ref geps t := rfl

theorem arm_raw : (raw n t).arm σ = raw n t := rfl

theorem arm_ite : (ite cond p q n t).arm σ = if cond.eval σ = true then p.arm σ else q.arm σ := rfl

end

end Pointer

/-- The number of an index. -/
def Value.num (σ : Env) : Value → Nat
  | ⟨.bv _, t⟩ => (t.eval σ).toNat
  | ⟨.bool, t⟩ => (t.eval σ).toNat
  | ⟨.args, _⟩ => 0

/-- What a pointer denotes: null, or a place in a reference. -/
inductive Address
  | null
  | at (ref : String) (path : List Nat)
  deriving DecidableEq

namespace Pointer

variable (P : Lib) (σ : Env)

/-- What the pointer denotes under an assignment. A pointer whose indices have no canonical path, or
that is only a word other than null, denotes nothing. -/
def address (p : Pointer) : Option Address :=
  match p.arm σ with
  | base ref geps _ =>
    match canonicalPath P geps with
    | .ok path => some (.at ref.name (path.map (Value.num σ)))
    | .error _ => none
  | raw n _ => if n.eval σ = null.eval σ then some .null else none
  | ite .. => none

/-- Both pointers denote, and they denote the same. -/
def SameAddress (p q : Pointer) : Prop := ∃ a, p.address P σ = some a ∧ q.address P σ = some a

/-- `eq` and `ne` tell whether the pointers denote the same. -/
def EqExact (p q : Pointer) : Prop :=
  ∀ (atype btype : Ty) (c : Ctx), atype.eq btype = true →
    ∃ v w : Term .bool,
      Irpy.eq P (.ptr p) atype (.ptr q) btype c = .ok ⟨_, v⟩ c ∧
      Irpy.ne P (.ptr p) atype (.ptr q) btype c = .ok ⟨_, w⟩ c ∧
      (v.eval σ = true ↔ SameAddress P σ p q) ∧ w.eval σ = !(v.eval σ : Bool)

/-- The names of the two pointers have the same value. -/
def SameName (p q : Pointer) : Prop := (p.name P).eval σ = (q.name P).eval σ

/-- The assignment names the selected pointers by what they denote: places by different values if
and only if they are different, and null by a value of its own that no other word has twice. -/
def ArmsFit : Pointer → Pointer → Prop
  | p@(base ..), q@(base ..) => SameName P σ p q ↔ SameAddress P σ p q
  | p@(raw n _), q@(raw ..) => SameName P σ p q → n.eval σ = null.eval σ
  | p, q => ¬SameName P σ p q

/-- Two initialised pointers are spelled the same, with indices that have a canonical path, or they
are different places; and their indices can be compared. Others are named by what they denote. -/
def Fits : Pointer → Pointer → Prop
  | p@(base r gs s), q@(base r' hs t) =>
    (∃ b, gepsEq gs hs = .ok b) ∧
      if gs = hs ∧ r.eq r' = true ∧ s.eq t = true then ∃ path, canonicalPath P gs = .ok path
      else ¬SameAddress P σ p q
  | p, q => ArmsFit P σ (p.arm σ) (q.arm σ)

variable {P : Lib} {σ : Env}

/-! ## Names -/

/-- `Pointer.ite` names the pointer by the selected name. -/
theorem iteObj_named {p q r : Pointer} {cond : Term .bool} (hp : p.Named P) (hq : q.Named P)
    (h : p.iteObj P (.ptr q) cond = .ok r) : r.Named P := by
  obtain ⟨t, ht, hval⟩ := exists_ifValue P cond (p.name P) (q.name P)
  have hr : p.iteObj P (.ptr q) cond = .ok (.ite cond p q t p.type) := by
    show (ifName P cond (p.name P) ⟨_, q.name P⟩ >>= _) = _
    rw [ifName, ht]
    rfl
  rw [hr] at h
  cases h
  exact ⟨hp, hq, hval⟩

/-- A new pointer of a reference is initialised. -/
theorem make_eq_ok {ref : Reference} {geps : Geps} {type : Ty} {c d : Ctx} {q : Pointer}
    (h : make P ref geps type c = .ok q d) : q = base ref geps type := by
  cases h
  rfl

theorem getelementptr_named {idxs : List Value} {type : Ty} {p q : Pointer} {c d : Ctx}
    (hp : p.Named P) (h : p.getelementptr P idxs type c = .ok q d) : q.Named P := by
  induction p generalizing q c d with
  | base ref geps t =>
    rw [getelementptr] at h
    split at h
    · cases h
    · rw [make_eq_ok h]
      trivial
  | raw n t =>
    rw [getelementptr, Py.bind_eq_ok] at h
    obtain ⟨m, e, -, h⟩ := h
    cases h
    trivial
  | ite cond p1 p2 n t ih1 ih2 =>
    rw [getelementptr, Py.bind_eq_ok] at h
    obtain ⟨q2, e, h2, h⟩ := h
    rw [Py.bind_eq_ok] at h
    obtain ⟨q1, e', h1, h⟩ := h
    cases hr : q1.iteObj P (.ptr q2) cond with
    | error x =>
      rw [hr] at h
      cases h
    | ok r =>
      rw [hr] at h
      cases h
      exact iteObj_named (ih1 hp.1 h1) (ih2 hp.2.1 h2) hr

/-- The pointers that are built are named by what is selected. -/
theorem Built.named {p : Pointer} (h : p.Built P) : p.Named P := by
  induction h with
  | fresh h =>
    rw [freshPtr, Py.bind_eq_ok] at h
    obtain ⟨_, e, -, h⟩ := h
    rw [make_eq_ok h]
    trivial
  | null => trivial
  | gep _ h ih => exact getelementptr_named ih h
  | ite _ _ h ihp ihq => exact iteObj_named ihp ihq h

/-- The name of a pointer has the value of the name of the selected one. -/
theorem name_arm (σ : Env) {p : Pointer} (h : p.Named P) :
    (p.name P).eval σ = ((p.arm σ).name P).eval σ := by
  induction p with
  | base | raw => rfl
  | ite cond p1 p2 n t ih1 ih2 =>
    rw [arm_ite]
    show n.eval σ = _
    rw [h.2.2 σ]
    split
    · exact ih1 h.1
    · exact ih2 h.2.1

theorem arm_arm (σ : Env) (p : Pointer) : (p.arm σ).arm σ = p.arm σ := by
  induction p with
  | base | raw => rfl
  | ite cond p1 p2 n t ih1 ih2 =>
    rw [arm_ite]
    split
    · exact ih1
    · exact ih2

/-- What is selected is not conditional. -/
theorem arm_ne_ite (σ : Env) (p : Pointer) {cond : Term .bool} {q r : Pointer}
    {n : Term (.bv 64)} {t : Ty} : p.arm σ ≠ .ite cond q r n t := by
  induction p with
  | base | raw => exact fun h => nomatch h
  | ite c p1 p2 m s ih1 ih2 =>
    rw [arm_ite]
    split
    · exact ih1
    · exact ih2

@[simp] theorem address_arm (σ : Env) (p : Pointer) : (p.arm σ).address P σ = p.address P σ := by
  rw [address, arm_arm, address]

@[simp] theorem sameAddress_arm {p q : Pointer} :
    SameAddress P σ (p.arm σ) (q.arm σ) ↔ SameAddress P σ p q := by
  simp only [SameAddress, address_arm]

theorem sameName_arm {p q : Pointer} (hp : p.Named P) (hq : q.Named P) :
    SameName P σ (p.arm σ) (q.arm σ) ↔ SameName P σ p q := by
  simp only [SameName, name_arm σ hp, name_arm σ hq]

/-! ## Comparison by name -/

/-- Neither place is null, and a word is no place. -/
theorem address_base (ref : Reference) (geps : Geps) (t : Ty) :
    address P σ (base ref geps t) ≠ some .null := by
  simp only [address, arm_base]
  split <;> exact fun h => nomatch h

theorem address_raw (n : Term (.bv 64)) (t : Ty) (a : Address) :
    address P σ (raw n t) = some a ↔ n.eval σ = null.eval σ ∧ a = .null := by
  simp only [address, arm_raw]
  split
  · simp_all [eq_comm]
  · simp_all

/-- Two selected pointers fit if they have the same name exactly when they denote the same. -/
theorem armsFit_iff (p q : Pointer) :
    ArmsFit P σ (p.arm σ) (q.arm σ) ↔
      (SameName P σ (p.arm σ) (q.arm σ) ↔ SameAddress P σ (p.arm σ) (q.arm σ)) := by
  generalize hp : p.arm σ = x
  generalize hq : q.arm σ = y
  cases x with
  | ite => exact absurd hp (arm_ne_ite σ p)
  | base r gs s =>
    cases y with
    | ite => exact absurd hq (arm_ne_ite σ q)
    | base => rfl
    | raw m t =>
      have : ¬SameAddress P σ (base r gs s) (raw m t) := by
        rintro ⟨a, hb, hr⟩
        rw [((address_raw m t a).1 hr).2] at hb
        exact address_base r gs s hb
      simp [ArmsFit, this]
  | raw n s =>
    cases y with
    | ite => exact absurd hq (arm_ne_ite σ q)
    | base r gs t =>
      have : ¬SameAddress P σ (raw n s) (base r gs t) := by
        rintro ⟨a, hr, hb⟩
        rw [((address_raw n s a).1 hr).2] at hb
        exact address_base r gs t hb
      simp [ArmsFit, this]
    | raw m t =>
      have : SameAddress P σ (raw n s) (raw m t) ↔
          n.eval σ = null.eval σ ∧ m.eval σ = null.eval σ := by
        simp only [SameAddress, address_raw]
        exact ⟨fun ⟨a, h, h'⟩ => ⟨h.1, h'.1⟩, fun h => ⟨_, ⟨h.1, rfl⟩, h.2, rfl⟩⟩
      rw [this]
      show (n.eval σ = m.eval σ → _) ↔ (n.eval σ = m.eval σ ↔ _)
      grind

/-! ## Comparison of indices -/

theorem termEq_eq_ok {a b : Value} {v : Bool} (h : termEq a b = .ok v) : v = true ↔ a = b := by
  rw [termEq] at h
  split at h
  · cases h
    exact decide_eq_true_iff
  · cases h

theorem tupleEq_eq_ok {as bs : List Value} {v : Bool} (h : tupleEq as bs = .ok v) :
    v = true ↔ as = bs := by
  induction as generalizing bs with
  | nil => cases bs <;> cases h <;> simp
  | cons a as ih =>
    cases bs with
    | nil => cases h; simp
    | cons b bs =>
      obtain ⟨w, hw, h⟩ := bind_eq_ok_iff.1 h
      cases w with
      | false =>
        cases h
        have := termEq_eq_ok hw
        simp_all
      | true => rw [ih h, (termEq_eq_ok hw).1 rfl, List.cons_inj_right]

theorem listEq_eq_ok {gs hs : Geps} {v : Bool} (hlen : gs.length = hs.length)
    (h : listEq tupleEq gs hs = .ok v) : v = true ↔ gs = hs := by
  induction gs generalizing hs with
  | nil =>
    cases hs with
    | nil => cases h; simp
    | cons => cases hlen
  | cons g gs ih =>
    cases hs with
    | nil => cases hlen
    | cons k hs =>
      obtain ⟨w, hw, h⟩ := bind_eq_ok_iff.1 h
      cases w with
      | false =>
        cases h
        have := tupleEq_eq_ok hw
        simp_all
      | true => rw [ih (Nat.succ.inj hlen) h, (tupleEq_eq_ok hw).1 rfl, List.cons_inj_right]

/-- Lists of indices that can be compared are found equal if they are. -/
theorem gepsEq_eq_ok {gs hs : Geps} {v : Bool} (h : gepsEq gs hs = .ok v) :
    v = true ↔ gs = hs := by
  rw [gepsEq] at h
  split at h
  · rename_i hlen
    exact listEq_eq_ok hlen h
  · rename_i hlen
    cases h
    exact iff_of_false Bool.false_ne_true fun h => hlen (congrArg List.length h)

/-! ## Exactness -/

/-- The comparison is exact if it gives a term with the value of the comparison of addresses. -/
theorem eqExact_of_eq {p q : Pointer} {v : Term .bool}
    (h : ∀ (atype btype : Ty) (c : Ctx), Irpy.eq P (.ptr p) atype (.ptr q) btype c =
      (check (atype.eq btype) >>= fun _ => pure ⟨_, v⟩) c) :
    EqExact P σ p q ↔ (v.eval σ = true ↔ SameAddress P σ p q) := by
  have heq (atype btype : Ty) (c : Ctx) (ht : atype.eq btype = true) :
      Irpy.eq P (.ptr p) atype (.ptr q) btype c = .ok ⟨_, v⟩ c := by
    rw [h, Py.check_bind, if_pos ht]
    rfl
  have hne (atype btype : Ty) (c : Ctx) (ht : atype.eq btype = true) :
      Irpy.ne P (.ptr p) atype (.ptr q) btype c = .ok ⟨_, .not v⟩ c := by
    rw [Irpy.ne, Py.bind_apply, heq atype btype c ht]
    rfl
  constructor
  · intro hx
    obtain ⟨v', w, hv, -, hiff, -⟩ := hx .void .void Ctx.new rfl
    rw [heq .void .void Ctx.new rfl] at hv
    cases hv
    exact hiff
  · intro hiff atype btype c ht
    exact ⟨v, .not v, heq atype btype c ht, hne atype btype c ht, hiff, Term.eval_not v⟩

/-- Pointers that are compared by name are compared exactly if the selected ones fit. -/
theorem eqExact_of_name {p q : Pointer} (hp : p.Named P) (hq : q.Named P)
    (h : ∀ (atype btype : Ty) (c : Ctx), Irpy.eq P (.ptr p) atype (.ptr q) btype c =
      (check (atype.eq btype) >>= fun _ => pure ⟨_, .eq (p.name P) (q.name P)⟩) c) :
    EqExact P σ p q ↔ ArmsFit P σ (p.arm σ) (q.arm σ) := by
  rw [eqExact_of_eq h, Term.eval_eq_iff, armsFit_iff, sameName_arm hp hq, sameAddress_arm]
  rfl

theorem sameAddress_of_spelled {r r' : Reference} {gs : Geps} {s t : Ty} (h : r.name = r'.name) :
    SameAddress P σ (base r gs s) (base r' gs t) ↔ ∃ path, canonicalPath P gs = .ok path := by
  simp only [SameAddress, address, arm_base, h, and_self]
  cases canonicalPath P gs <;> simp

/-- Initialised pointers are compared exactly if they are spelled the same or are different. -/
theorem eqExact_base {r r' : Reference} {gs hs : Geps} {s t : Ty} :
    EqExact P σ (base r gs s) (base r' hs t) ↔ Fits P σ (base r gs s) (base r' hs t) := by
  rw [Fits]
  cases hg : gepsEq gs hs with
  | error e =>
    refine iff_of_false (fun h => ?_) (fun h => nomatch h.1)
    obtain ⟨v, w, hv, -⟩ := h .void .void Ctx.new rfl
    rw [Irpy.eq, Py.check_bind, Pointer.eq, hg] at hv
    cases hv
  | ok b =>
    have hv : Pointer.eq P (base r gs s) (base r' hs t) =
        .ok (decide (gs = hs ∧ r.eq r' = true ∧ s.eq t = true)) := by
      have hb := gepsEq_eq_ok hg
      rw [Pointer.eq, hg]
      cases b with
      | false =>
        have hne : ¬gs = hs := fun h => Bool.false_ne_true (hb.2 h)
        rw [decide_eq_false fun h => hne h.1]
        rfl
      | true =>
        show Except.ok _ = _
        simp [hb.1 rfl]
    have hx := eqExact_of_eq (P := P) (σ := σ) (p := base r gs s) (q := base r' hs t)
      (v := .lit (decide (gs = hs ∧ r.eq r' = true ∧ s.eq t = true))) fun atype btype c => by
        rw [Irpy.eq, hv]
        rfl
    rw [hx, Term.eval_lit, decide_eq_true_iff]
    by_cases h : gs = hs ∧ r.eq r' = true ∧ s.eq t = true
    · have hname : r.name = r'.name := by simpa using (Bool.and_eq_true_iff.1 h.2.1).2
      have hplace : SameAddress P σ (base r gs s) (base r' hs t) ↔
          ∃ path, canonicalPath P gs = .ok path := by
        rw [← h.1]
        exact sameAddress_of_spelled hname
      rw [if_pos h, ← hplace]
      exact ⟨fun hx => ⟨⟨b, rfl⟩, hx.1 h⟩, fun ha => iff_of_true h ha.2⟩
    · rw [if_neg h]
      exact ⟨fun hx => ⟨⟨b, rfl⟩, fun ha => h (hx.2 ha)⟩, fun ha => iff_of_false h ha.2⟩

/-- Two pointers are compared exactly if and only if they fit. -/
theorem eqExact_iff {p q : Pointer} (hp : p.Built P) (hq : q.Built P) :
    EqExact P σ p q ↔ Fits P σ p q := by
  cases p with
  | base r gs s =>
    cases q with
    | base r' hs t => exact eqExact_base
    | raw | ite => exact eqExact_of_name hp.named hq.named fun _ _ _ => rfl
  | raw | ite => cases q <;> exact eqExact_of_name hp.named hq.named fun _ _ _ => rfl

end Pointer

/-- Null is zero and all other words are one. -/
def nullOnly : Env where
  var
    | name, .bv _ => if name = "null" then 0 else 1
    | _, .bool => false
    | _, .args => []
  fn _ _ _ := default

theorem nullOnly_name (geps : String) :
    (Term.not (.eq (.var ("r" ++ geps) (.bv 64)) null)).eval nullOnly = true := by
  have hname : "r" ++ geps ≠ "null" := by
    intro h
    have := congrArg String.toList h
    simp at this
  simp [Term.eval, null, nullOnly, hname]

namespace Pointer

/-- A fresh pointer is told from null. -/
theorem exists_eqExact :
    EqExact Lib.ideal nullOnly (.base ⟨"r", .pointer (.int 64)⟩ [] (.pointer (.int 64)))
      (constantPointerNull (.pointer (.int 64))) := by
  have hr : (base ⟨"r", .pointer (.int 64)⟩ [] (.pointer (.int 64))).Built Lib.ideal :=
    @Built.fresh _ "r" (.pointer (.int 64)) Ctx.new _ _ rfl
  apply (eqExact_iff hr (.null _)).2
  show ¬(Term.var ("r" ++ _) (.bv 64)).eval nullOnly = _
  have hname := nullOnly_name (Lib.ideal.str [])
  rw [Term.eval_not, Bool.not_eq_true'] at hname
  intro h
  rw [(Term.eval_eq_iff _ null).2 h] at hname
  cases hname

/-- A fresh pointer and the pointer to its first element denote the same place, and `eq` tells them
apart. -/
theorem exists_not_eqExact :
    ∃ (p q : Pointer) (d : Ctx),
      (do
        let p ← freshPtr Lib.ideal "r" (.pointer (.int 64))
        let q ← p.getelementptr Lib.ideal [.bvVal 64 0] (.pointer (.int 64))
        pure (p, q)) Ctx.new = .ok (p, q) d ∧
      Holds nullOnly d.assertions ∧ ¬EqExact Lib.ideal nullOnly p q := by
  refine ⟨.base ⟨"r", .pointer (.int 64)⟩ [] (.pointer (.int 64)),
    .base ⟨"r", .pointer (.int 64)⟩ [[.bvVal 64 0]] (.pointer (.int 64)), _, rfl, ?_, ?_⟩
  · show ∀ t ∈ [Term.not (.eq (.var ("r" ++ _) (.bv 64)) null),
      .not (.eq (.var ("r" ++ _) (.bv 64)) null)], _
    simp only [List.forall_mem_cons, nullOnly_name, List.not_mem_nil, false_implies, implies_true,
      and_self]
  · intro h
    obtain ⟨v, w, hv, -, hiff, -⟩ := h .void .void Ctx.new rfl
    cases hv
    exact absurd (hiff.2 ⟨_, rfl, rfl⟩) (by decide)

end Pointer

end L4Thread.Irpy
