import Mathlib.Tactic.Common

/-!
# State transformers that may trap

`TrapM ε σ α` is a computation on a state `σ` that returns a value of `α` or traps with a reason
in `ε`; a trap has no final state. `wp E x Q s` is the weakest precondition of `x` for the
postcondition `Q`, where `E` says which traps are acceptable: `E := fun _ => True` is partial
correctness, and `E := fun _ => False` demands that `x` returns.

`Keeps f x` is the frame condition that no returning run of `x` changes the part `f` of the state;
it is closed under the combinators of the monad.
-/

/-- A state transformer that returns or traps. -/
def TrapM (ε σ α : Type) : Type := σ → Except ε (α × σ)

namespace TrapM

variable {ε σ α β : Type}

instance : Monad (TrapM ε σ) where
  pure a := fun s => .ok (a, s)
  bind x f := fun s =>
    match x s with
    | .ok (a, s') => f a s'
    | .error e => .error e

/-- Read a component of the state. -/
def gets (f : σ → α) : TrapM ε σ α := fun s => .ok (f s, s)

/-- Replace the state. -/
def modify (f : σ → σ) : TrapM ε σ Unit := fun s => .ok ((), f s)

/-- Stop without a final state. -/
def trap (e : ε) : TrapM ε σ α := fun _ => .error e

@[simp] theorem pure_apply (a : α) (s : σ) : (pure a : TrapM ε σ α) s = .ok (a, s) := rfl

@[simp] theorem gets_apply (f : σ → α) (s : σ) : (gets f : TrapM ε σ α) s = .ok (f s, s) := rfl

@[simp] theorem modify_apply (f : σ → σ) (s : σ) :
    (modify f : TrapM ε σ Unit) s = .ok ((), f s) := rfl

@[simp] theorem trap_apply (e : ε) (s : σ) : (trap e : TrapM ε σ α) s = .error e := rfl

theorem bind_apply (x : TrapM ε σ α) (f : α → TrapM ε σ β) (s : σ) :
    (x >>= f) s = match x s with | .ok (a, s') => f a s' | .error e => .error e := rfl

theorem bind_bind {γ : Type} (x : TrapM ε σ α) (f : α → TrapM ε σ β) (g : β → TrapM ε σ γ) :
    x >>= f >>= g = x >>= fun a => f a >>= g := by
  funext s
  simp only [bind_apply]
  cases x s <;> rfl

theorem pure_bind (a : α) (f : α → TrapM ε σ β) : (Pure.pure a >>= f) = f a := rfl

theorem ite_bind (c : Prop) [Decidable c] (x y : TrapM ε σ α) (f : α → TrapM ε σ β) :
    (if c then x else y) >>= f = if c then x >>= f else y >>= f := by
  split <;> rfl

/-- Peel the first computation off a sequence that returns. -/
theorem bind_eq_ok {x : TrapM ε σ α} {f : α → TrapM ε σ β} {s t : σ} {b : β} :
    (x >>= f) s = .ok (b, t) ↔ ∃ a u, x s = .ok (a, u) ∧ f a u = .ok (b, t) := by
  rw [bind_apply]
  constructor
  · intro h
    cases hx : x s with
    | error e =>
      rw [hx] at h
      cases h
    | ok p =>
      rw [hx] at h
      exact ⟨p.1, p.2, rfl, h⟩
  · rintro ⟨a, u, hx, hf⟩
    rw [hx]
    exact hf

/-! ## Runs that are evaluated -/

/-- The computation returns from `s`, and what it returns passes the test. -/
def returnsWith (x : TrapM ε σ α) (P : α → σ → Bool) (s : σ) : Bool :=
  match x s with
  | .ok (a, t) => P a t
  | .error _ => false

theorem exists_of_returnsWith {x : TrapM ε σ α} {P : α → σ → Bool} {s : σ}
    (h : returnsWith x P s = true) : ∃ a t, x s = .ok (a, t) ∧ P a t = true := by
  unfold returnsWith at h
  cases hx : x s with
  | error e =>
    rw [hx] at h
    cases h
  | ok r =>
    rw [hx] at h
    exact ⟨r.1, r.2, rfl, h⟩

/-! ## Weakest preconditions -/

/-- The weakest precondition of `x` for `Q`, with the traps in `E` accepted. -/
def wp (E : ε → Prop) (x : TrapM ε σ α) (Q : α → σ → Prop) (s : σ) : Prop :=
  match x s with
  | .ok (a, s') => Q a s'
  | .error e => E e

variable {E : ε → Prop} {Q Q' : α → σ → Prop} {s : σ}

@[simp] theorem wp_pure (a : α) : wp E (pure a : TrapM ε σ α) Q s ↔ Q a s := .rfl

@[simp] theorem wp_gets (f : σ → α) : wp E (gets f : TrapM ε σ α) Q s ↔ Q (f s) s := .rfl

@[simp] theorem wp_modify (f : σ → σ) {Q : Unit → σ → Prop} :
    wp E (modify f : TrapM ε σ Unit) Q s ↔ Q () (f s) := .rfl

@[simp] theorem wp_trap (e : ε) : wp E (trap e : TrapM ε σ α) Q s ↔ E e := .rfl

@[simp] theorem wp_bind (x : TrapM ε σ α) (f : α → TrapM ε σ β) {Q : β → σ → Prop} :
    wp E (x >>= f) Q s ↔ wp E x (fun a t => wp E (f a) Q t) s := by
  simp only [wp, bind_apply]
  cases x s <;> rfl

@[simp] theorem wp_ite (c : Prop) [Decidable c] (x y : TrapM ε σ α) :
    wp E (if c then x else y) Q s ↔ if c then wp E x Q s else wp E y Q s := by
  split <;> rfl

theorem wp_mono {x : TrapM ε σ α} (h : wp E x Q s) (hQ : ∀ a t, Q a t → Q' a t) :
    wp E x Q' s := by
  unfold wp at h ⊢
  split at h
  · exact hQ _ _ h
  · exact h

/-- More traps are accepted. -/
theorem wp_weaken {E' : ε → Prop} {x : TrapM ε σ α} (hE : ∀ e, E e → E' e) (h : wp E x Q s) :
    wp E' x Q s := by
  unfold wp at h ⊢
  split at h
  · exact h
  · exact hE _ h

/-- What is left when all traps are accepted. -/
theorem wp_mayTrap {x : TrapM ε σ α} (h : wp E x Q s) : wp (fun _ => True) x Q s :=
  wp_weaken (fun _ _ => trivial) h

/-- A run judged twice, once only for its result. -/
theorem wp_and {x : TrapM ε σ α} (h : wp E x Q s) (h' : wp (fun _ => True) x Q' s) :
    wp E x (fun a t => Q a t ∧ Q' a t) s := by
  unfold wp at h h' ⊢
  cases hx : x s with
  | error e =>
    rw [hx] at h
    exact h
  | ok r =>
    rw [hx] at h h'
    exact ⟨h, h'⟩

theorem wp_ok {x : TrapM ε σ α} {a : α} {t : σ} (h : wp E x Q s) (hx : x s = .ok (a, t)) :
    Q a t := by
  simpa only [wp, hx] using h

theorem wp_error {x : TrapM ε σ α} {e : ε} (h : wp E x Q s) (hx : x s = .error e) : E e := by
  simpa only [wp, hx] using h

/-- Partial correctness, spelled out over the returning runs. -/
theorem wp_iff_ok {x : TrapM ε σ α} :
    wp (fun _ => True) x Q s ↔ ∀ a t, x s = .ok (a, t) → Q a t := by
  unfold wp
  cases h : x s with
  | error e => simp
  | ok p =>
    obtain ⟨a, u⟩ := p
    simp

/-- Forget what the first computation does. -/
theorem wp_bind_of_forall {x : TrapM ε σ α} {f : α → TrapM ε σ β} {Q : β → σ → Prop}
    (h : ∀ a t, wp (fun _ => True) (f a) Q t) : wp (fun _ => True) (x >>= f) Q s := by
  rw [wp_bind, wp_iff_ok]
  exact fun a t _ => h a t

/-- Total correctness, spelled out: the computation returns. -/
theorem wp_iff_exists {x : TrapM ε σ α} :
    wp (fun _ => False) x Q s ↔ ∃ a t, x s = .ok (a, t) ∧ Q a t := by
  unfold wp
  cases h : x s with
  | error e => simp
  | ok p =>
    obtain ⟨a, u⟩ := p
    simp

/-! ## Results -/

/-- Every result of a returning run of `x` meets `P`. -/
def Returns (P : α → Prop) (x : TrapM ε σ α) : Prop := ∀ s a t, x s = .ok (a, t) → P a

namespace Returns

@[grind ←] theorem pure {P : α → Prop} {a : α} (h : P a) :
    Returns P (pure a : TrapM ε σ α) := by
  intro s b t hs
  cases hs
  exact h

@[grind ←] theorem bind {P : β → Prop} {x : TrapM ε σ α} {g : α → TrapM ε σ β}
    (hg : ∀ a, Returns P (g a)) : Returns P (x >>= g) := by
  intro s b t h
  obtain ⟨a, u, -, h2⟩ := bind_eq_ok.mp h
  exact hg a u b t h2

theorem wp {P : α → Prop} {x : TrapM ε σ α} (h : Returns P x) (hQ : ∀ a t, P a → Q a t) :
    wp (fun _ => True) x Q s :=
  wp_iff_ok.mpr fun a t hx => hQ a t (h s a t hx)

end Returns

/-! ## Traps -/

/-- Every trap of `x` is in `E`. -/
def Throws (E : ε → Prop) (x : TrapM ε σ α) : Prop := ∀ s e, x s = .error e → E e

namespace Throws

@[grind ←] theorem pure (a : α) : Throws E (pure a : TrapM ε σ α) := by
  intro s e h
  cases h

@[grind ←] theorem gets (g : σ → α) : Throws E (gets g : TrapM ε σ α) := by
  intro s e h
  cases h

@[grind ←] theorem modify (g : σ → σ) : Throws E (modify g : TrapM ε σ Unit) := by
  intro s e h
  cases h

@[grind ←] theorem trap {e : ε} (he : E e) : Throws E (trap e : TrapM ε σ α) := by
  intro s e' h
  cases h
  exact he

@[grind ←] theorem bind {x : TrapM ε σ α} {g : α → TrapM ε σ β} (hx : Throws E x)
    (hg : ∀ a, Throws E (g a)) : Throws E (x >>= g) := by
  intro s e h
  rw [bind_apply] at h
  cases hr : x s with
  | error e' =>
    rw [hr] at h
    cases h
    exact hx s e hr
  | ok p =>
    rw [hr] at h
    exact hg p.1 p.2 e h

/-- Run a computation of which only the traps and a partial specification matter. -/
theorem wp {x : TrapM ε σ α} (h : Throws E x) (hQ : wp (fun _ => True) x Q s) : wp E x Q s := by
  unfold TrapM.wp at hQ ⊢
  cases hr : x s with
  | error e => exact h s e hr
  | ok p =>
    rw [hr] at hQ
    exact hQ

end Throws

/-! ## Frame conditions -/

/-- No returning run of `x` changes the part `f` of the state. -/
def Keeps {τ : Type} (f : σ → τ) (x : TrapM ε σ α) : Prop := ∀ s a t, x s = .ok (a, t) → f t = f s

namespace Keeps

variable {τ : Type} {f : σ → τ}

@[grind ←] theorem pure (a : α) : Keeps f (pure a : TrapM ε σ α) := by
  intro s b t h
  cases h
  rfl

@[grind ←] theorem gets (g : σ → α) : Keeps f (gets g : TrapM ε σ α) := by
  intro s b t h
  cases h
  rfl

theorem modify {g : σ → σ} (h : ∀ s, f (g s) = f s) : Keeps f (modify g : TrapM ε σ Unit) := by
  intro s b t hs
  cases hs
  exact h s

@[grind ←] theorem trap (e : ε) : Keeps f (trap e : TrapM ε σ α) := by
  intro s b t h
  cases h

@[grind ←] theorem bind {x : TrapM ε σ α} {g : α → TrapM ε σ β} (hx : Keeps f x)
    (hg : ∀ a, Keeps f (g a)) : Keeps f (x >>= g) := by
  intro s b t h
  obtain ⟨a, u, h1, h2⟩ := bind_eq_ok.mp h
  exact (hg a u b t h2).trans (hx s a u h1)

/-- Run a computation of which only the frame condition matters. -/
theorem wp {x : TrapM ε σ α} {Q : α → σ → Prop} {s : σ} (h : Keeps f x)
    (hQ : ∀ a t, f t = f s → Q a t) : wp (fun _ => True) x Q s :=
  wp_iff_ok.mpr fun a t hx => hQ a t (h s a t hx)

/-- What keeps a part of the state keeps every part of that part. -/
theorem comp {υ : Type} (g : τ → υ) {x : TrapM ε σ α} (h : Keeps f x) :
    Keeps (fun s => g (f s)) x :=
  fun s a t hx => congrArg g (h s a t hx)

end Keeps

/-! ## Invariants -/

/-- Every returning run of `x` from a state with `I` ends in a state with `I`. -/
def Preserves (I : σ → Prop) (x : TrapM ε σ α) : Prop := ∀ s a t, I s → x s = .ok (a, t) → I t

namespace Preserves

variable {I : σ → Prop}

@[grind ←] theorem pure (a : α) : Preserves I (pure a : TrapM ε σ α) := by
  intro s b t hI h
  cases h
  exact hI

@[grind ←] theorem gets (g : σ → α) : Preserves I (gets g : TrapM ε σ α) := by
  intro s b t hI h
  cases h
  exact hI

theorem modify {g : σ → σ} (h : ∀ s, I s → I (g s)) : Preserves I (modify g : TrapM ε σ Unit) := by
  intro s b t hI hs
  cases hs
  exact h s hI

@[grind ←] theorem trap (e : ε) : Preserves I (trap e : TrapM ε σ α) := by
  intro s b t _ h
  cases h

@[grind ←] theorem bind {x : TrapM ε σ α} {g : α → TrapM ε σ β} (hx : Preserves I x)
    (hg : ∀ a, Preserves I (g a)) : Preserves I (x >>= g) := by
  intro s b t hI h
  obtain ⟨a, u, h1, h2⟩ := bind_eq_ok.mp h
  exact hg a u b t (hx s a u hI h1) h2

/-- Run a computation of which only the invariant matters. -/
theorem wp {x : TrapM ε σ α} {Q : α → σ → Prop} {s : σ} (h : Preserves I x) (hI : I s)
    (hQ : ∀ a t, I t → Q a t) : wp (fun _ => True) x Q s :=
  wp_iff_ok.mpr fun a t hx => hQ a t (h s a t hI hx)

theorem of_wp {x : TrapM ε σ α} (h : ∀ s, I s → TrapM.wp (fun _ => True) x (fun _ t => I t) s) :
    Preserves I x :=
  fun s a t hI hx => wp_iff_ok.mp (h s hI) a t hx

/-- An invariant of a part of the state that is kept. -/
theorem of_keeps {τ : Type} {f : σ → τ} {J : τ → Prop} {x : TrapM ε σ α} (h : Keeps f x) :
    Preserves (fun s => J (f s)) x := by
  intro s a t hI hx
  rw [h s a t hx]
  exact hI

end Preserves

/-! ## Conditions before and after -/

/-- From a state with `I`, every returning run of `x` ends in `J` for its result. -/
def Leads (I : σ → Prop) (x : TrapM ε σ α) (J : α → σ → Prop) : Prop :=
  ∀ s a t, I s → x s = .ok (a, t) → J a t

namespace Leads

variable {I I' : σ → Prop} {J : α → σ → Prop} {K : β → σ → Prop}

theorem pure {a : α} (h : ∀ s, I s → J a s) : Leads I (pure a : TrapM ε σ α) J := by
  intro s b t hI hs
  cases hs
  exact h s hI

theorem trap (e : ε) : Leads I (trap e : TrapM ε σ α) J := by
  intro s b t _ hs
  cases hs

theorem bind {x : TrapM ε σ α} {g : α → TrapM ε σ β} (hx : Leads I x J)
    (hg : ∀ a, Leads (J a) (g a) K) : Leads I (x >>= g) K := by
  intro s b t hI hs
  obtain ⟨a, u, h1, h2⟩ := bind_eq_ok.mp hs
  exact hg a u b t (hx s a u hI h1) h2

/-- A first computation that keeps the condition. -/
theorem after {x : TrapM ε σ α} {g : α → TrapM ε σ β} (hx : Preserves I x)
    (hg : ∀ a, Leads I (g a) K) : Leads I (x >>= g) K :=
  bind (J := fun _ => I) hx hg

/-- A first computation that reads the state. -/
theorem read {f : σ → α} {g : α → TrapM ε σ β} (hg : ∀ s, I s → Leads I (g (f s)) K) :
    Leads I (gets f >>= g) K := by
  intro s b t hI hs
  exact hg s hI s b t hI hs

theorem of_wp {x : TrapM ε σ α} (h : ∀ s, I s → TrapM.wp (fun _ => True) x J s) : Leads I x J :=
  fun s a t hI hx => wp_iff_ok.mp (h s hI) a t hx

theorem and {J' : α → σ → Prop} {x : TrapM ε σ α} (h : Leads I x J) (h' : Leads I x J') :
    Leads I x (fun a t => J a t ∧ J' a t) :=
  fun s a t hI hx => ⟨h s a t hI hx, h' s a t hI hx⟩

/-- A condition that is not about the state. -/
theorem assume {P : Prop} {x : TrapM ε σ α} (h : P → Leads I x J) :
    Leads (fun s => I s ∧ P) x J :=
  fun s a t hI hx => h hI.2 s a t hI.1 hx

theorem weaken {x : TrapM ε σ α} (hx : Leads I' x J) (h : ∀ s, I s → I' s) : Leads I x J :=
  fun s a t hI hs => hx s a t (h s hI) hs

end Leads

/-! ## Invariants with traps -/

/-- From a state with `I`, the computation traps in `E` only or returns to a state with `I`. -/
def Guards (E : ε → Prop) (I : σ → Prop) (x : TrapM ε σ α) : Prop :=
  ∀ s, I s → wp E x (fun _ t => I t) s

namespace Guards

variable {I : σ → Prop}

theorem pure (a : α) : Guards E I (pure a : TrapM ε σ α) := fun _ hI => hI

theorem gets (g : σ → α) : Guards E I (gets g : TrapM ε σ α) := fun _ hI => hI

theorem modify {g : σ → σ} (h : ∀ s, I s → I (g s)) : Guards E I (modify g : TrapM ε σ Unit) :=
  fun s hI => h s hI

theorem bind {x : TrapM ε σ α} {g : α → TrapM ε σ β} (hx : Guards E I x)
    (hg : ∀ a, Guards E I (g a)) : Guards E I (x >>= g) := by
  intro s hI
  rw [wp_bind]
  exact wp_mono (hx s hI) fun a t ht => hg a t ht

/-- A computation that traps in `E` only and preserves the invariant. -/
theorem of_throws {x : TrapM ε σ α} (h : Throws E x) (hI : Preserves I x) : Guards E I x :=
  fun s hs => h.wp (wp_iff_ok.mpr fun a t hx => hI s a t hs hx)

end Guards

end TrapM
