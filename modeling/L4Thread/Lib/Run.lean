import Mathlib.Tactic.Common

/-!
# Runs under a side condition

A transition system is given by its initial states and a step relation labelled by events.
`Reach init step ok` are the states reached by runs all of whose steps meet `ok`, a condition on
the state before the step and the event.
-/

namespace Run

variable {σ ε : Type} {init : σ → Prop} {step : σ → ε → σ → Prop} {ok ok' : σ → ε → Prop}

/-- The states of the runs whose steps all meet `ok`. -/
inductive Reach (init : σ → Prop) (step : σ → ε → σ → Prop) (ok : σ → ε → Prop) : σ → Prop
  | init {s : σ} (h : init s) : Reach init step ok s
  | step {s t : σ} {e : ε} (h : Reach init step ok s) (hok : ok s e) (hs : step s e t) :
    Reach init step ok t

/-- What holds initially and is preserved by every admissible step holds along every run. -/
theorem Reach.invariant {I : σ → Prop} (hinit : ∀ s, init s → I s)
    (hstep : ∀ s e t, I s → ok s e → step s e t → I t) {s : σ} (h : Reach init step ok s) :
    I s := by
  induction h with
  | init h => exact hinit _ h
  | step _ hok hs ih => exact hstep _ _ _ ih hok hs

theorem Reach.mono (hok : ∀ s e, ok s e → ok' s e) {s : σ} (h : Reach init step ok s) :
    Reach init step ok' s := by
  induction h with
  | init h => exact .init h
  | step _ h hs ih => exact .step ih (hok _ _ h) hs

/-- Execute a list of events, checking the side condition before each of them. -/
def exec (next : σ → ε → Option σ) (ok : σ → ε → Prop) [∀ s e, Decidable (ok s e)] :
    List ε → σ → Option σ
  | [], s => some s
  | e :: es, s => if ok s e then (next s e).bind (exec next ok es) else none

theorem Reach.exec {next : σ → ε → Option σ} [∀ s e, Decidable (ok s e)]
    {es : List ε} {s t : σ} (h : Reach init (fun s e t => next s e = some t) ok s)
    (he : exec next ok es s = some t) : Reach init (fun s e t => next s e = some t) ok t := by
  induction es generalizing s with
  | nil =>
    cases he
    exact h
  | cons e es ih =>
    rw [Run.exec] at he
    split at he
    · obtain ⟨u, hu, hrest⟩ := Option.bind_eq_some_iff.mp he
      exact ih (.step h ‹_› hu) hrest
    · cases he

/-- A state with `P` that an admissible execution ends in is reached. -/
theorem Reach.exists_of_exec {next : σ → ε → Option σ} [∀ s e, Decidable (ok s e)]
    {es : List ε} {s : σ} {P : σ → Bool}
    (h : Reach init (fun s e t => next s e = some t) ok s)
    (he : (Run.exec next ok es s).any P = true) :
    ∃ t, Reach init (fun s e t => next s e = some t) ok t ∧ P t = true := by
  obtain ⟨t, ht, hP⟩ := (Option.any_eq_true P _).mp he
  exact ⟨t, h.exec ht, hP⟩

/-! ## Chains of steps that end -/

variable {R : σ → σ → Prop} {I : σ → Prop} {m : σ → Nat}

/-- Where steps keep an invariant and lower a measure, a chain of steps keeps the invariant and is
no longer than the measure of its start. -/
theorem isChain_bounded (hstep : ∀ s t, I s → R s t → I t ∧ m t < m s) {l : List σ} : ∀ {s : σ},
    I s → (s :: l).IsChain R → (∀ t ∈ l, I t) ∧ l.length ≤ m s := by
  induction l with
  | nil => exact fun _ _ => ⟨nofun, Nat.zero_le _⟩
  | cons t l ih =>
    intro s hs hchain
    obtain ⟨hst, hrest⟩ := List.isChain_cons_cons.mp hchain
    obtain ⟨ht, hlt⟩ := hstep s t hs hst
    obtain ⟨hall, hlen⟩ := ih ht hrest
    exact ⟨List.forall_mem_cons.mpr ⟨ht, hall⟩, Nat.succ_le_of_lt (Nat.lt_of_le_of_lt hlen hlt)⟩

end Run
