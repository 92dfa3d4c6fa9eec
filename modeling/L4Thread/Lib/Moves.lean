import Mathlib.Data.List.Basic
import Mathlib.Logic.Function.Basic
import Mathlib.Logic.Nontrivial.Basic

/-!
# Moves one by one

A move writes the value of a source, a slot or a constant, to a slot. Moves that are meant at once
read what was there before the first of them; moves run one by one may read what an earlier one has
written. The two agree, from every assignment of values to the slots, exactly if no move reads the
target of an earlier one, except for what that one leaves as it is, and moves with one target have
one source.
-/

namespace Moves

variable {κ ν : Type}

/-- Where a value comes from. -/
inductive Source (κ ν : Type)
  | slot (k : κ)
  | value (v : ν)

/-- The value of a source, if its slot has one. -/
def Source.read (env : κ → Option ν) : Source κ ν → Option ν
  | .slot k => env k
  | .value v => some v

/-- Slots that all have values. -/
def full (e : κ → ν) : κ → Option ν := fun k => some (e k)

theorem Source.read_full (src : Source κ ν) (e : κ → ν) : ∃ v, src.read (full e) = some v := by
  cases src with
  | slot k => exact ⟨e k, rfl⟩
  | value v => exact ⟨v, rfl⟩

variable [DecidableEq κ]

/-- The moves one by one. -/
def run : List (κ × Source κ ν) → (κ → Option ν) → Option (κ → Option ν)
  | [], env => some env
  | (k, src) :: L, env => (src.read env).bind fun v => run L (Function.update env k (some v))

variable {L : List (κ × Source κ ν)} {m : κ × Source κ ν} {env env' : κ → Option ν}

/-- `b`, behind `a`, finds what `a` should have left. -/
def Agree (a b : κ × Source κ ν) : Prop :=
  (b.2 = .slot a.1 → a.2 = .slot a.1) ∧ (a.1 = b.1 → a.2 = b.2)

theorem Source.read_update {src : Source κ ν} {k : κ} (h : src ≠ .slot k) (o : Option ν) :
    src.read (Function.update env k o) = src.read env := by
  cases src with
  | slot j =>
    have hj : j ≠ k := fun hj => h (congrArg Source.slot hj)
    exact Function.update_of_ne hj _ _
  | value v => rfl

/-- What no move writes stays. -/
theorem run_of_notMem {k : κ} (hk : ∀ m ∈ L, m.1 ≠ k) (h : run L env = some env') :
    env' k = env k := by
  induction L generalizing env with
  | nil =>
    cases h
    rfl
  | cons m L ih =>
    rw [run] at h
    obtain ⟨v, -, h⟩ := Option.bind_eq_some_iff.mp h
    rw [ih (fun m hm => hk m (List.mem_cons_of_mem _ hm)) h]
    exact Function.update_of_ne (hk m List.mem_cons_self).symm _ _

theorem update_full (e : κ → ν) (k : κ) (v : ν) :
    Function.update (full e) k (some v) = full (Function.update e k v) := by
  funext j
  by_cases hj : j = k
  · rw [hj, Function.update_self, full, Function.update_self]
  · rw [Function.update_of_ne hj, full, full, Function.update_of_ne hj]

/-- From slots with values, the moves succeed. -/
theorem exists_run (L : List (κ × Source κ ν)) (e : κ → ν) :
    ∃ e', run L (full e) = some (full e') := by
  induction L generalizing e with
  | nil => exact ⟨e, rfl⟩
  | cons m L ih =>
    obtain ⟨v, hv⟩ := m.2.read_full e
    obtain ⟨e', he'⟩ := ih (Function.update e m.1 v)
    refine ⟨e', ?_⟩
    rw [run, hv, Option.bind_some, update_full]
    exact he'

/-- Moves that agree do what they would do at once. -/
theorem run_of_agree (hL : L.Pairwise Agree) (h : run L env = some env') :
    ∀ m ∈ L, env' m.1 = m.2.read env := by
  induction L generalizing env with
  | nil => exact fun m hm => absurd hm List.not_mem_nil
  | cons m L ih =>
    obtain ⟨hm, hL⟩ := List.pairwise_cons.mp hL
    rw [run] at h
    obtain ⟨v, hv, h⟩ := Option.bind_eq_some_iff.mp h
    -- the later moves read what was there before the first one
    have hlater : ∀ b ∈ L, env' b.1 = b.2.read env := by
      intro b hb
      rw [ih hL h b hb]
      by_cases hread : b.2 = .slot m.1
      · have hself := (hm b hb).1 hread
        rw [hself] at hv
        have hsame : Function.update env m.1 (some v) = env :=
          Function.update_eq_self_iff.mpr hv.symm
        rw [hsame]
      · exact Source.read_update hread _
    intro b hb
    rcases List.mem_cons.mp hb with rfl | hb
    · by_cases hagain : ∃ c ∈ L, c.1 = b.1
      · obtain ⟨c, hc, hcb⟩ := hagain
        rw [(hm c hc).2 hcb.symm, ← hcb]
        exact hlater c hc
      · have hnot : ∀ c ∈ L, c.1 ≠ b.1 := fun c hc hcb => hagain ⟨c, hc, hcb⟩
        rw [run_of_notMem hnot h, Function.update_self, hv]
    · exact hlater b hb

/-- Two sources that have the same value wherever the slots have values are one. -/
theorem Source.ext_full [Nontrivial ν] {src src' : Source κ ν}
    (h : ∀ e, src.read (full e) = src'.read (full e)) : src = src' := by
  obtain ⟨x, y, hxy⟩ := exists_pair_ne ν
  cases src with
  | slot k =>
    cases src' with
    | slot k' =>
      by_contra hne
      have hk : k' ≠ k := fun hk => hne (congrArg Source.slot hk.symm)
      have heq := h (Function.update (fun _ => x) k y)
      simp only [read, full, Function.update_self, Function.update_of_ne hk,
        Option.some.injEq] at heq
      exact hxy heq.symm
    | value v =>
      have hall : ∀ w : ν, w = v := fun w => Option.some.inj (h fun _ => w)
      exact absurd ((hall x).trans (hall y).symm) hxy
  | value v =>
    cases src' with
    | slot k' =>
      have hall : ∀ w : ν, v = w := fun w => Option.some.inj (h fun _ => w)
      exact absurd ((hall x).symm.trans (hall y)) hxy
    | value v' => exact congrArg Source.value (Option.some.inj (h fun _ => v))

/-- A slot that no move reads matters to nothing that is written. -/
theorem run_update {k : κ} {o : Option ν} (hread : ∀ m ∈ L, m.2 ≠ .slot k)
    (h : run L env = some env') : ∃ env₁, run L (Function.update env k o) = some env₁ ∧
      ∀ j, (j ≠ k ∨ ∃ m ∈ L, m.1 = j) → env₁ j = env' j := by
  induction L generalizing env with
  | nil =>
    cases h
    refine ⟨_, rfl, fun j hj => ?_⟩
    rcases hj with hj | ⟨m, hm, -⟩
    · exact Function.update_of_ne hj _ _
    · exact absurd hm List.not_mem_nil
  | cons m L ih =>
    rw [run] at h ⊢
    rw [Source.read_update (hread m List.mem_cons_self)]
    obtain ⟨v, hv, h⟩ := Option.bind_eq_some_iff.mp h
    rw [hv, Option.bind_some]
    by_cases hk : m.1 = k
    · rw [← hk, Function.update_idem]
      exact ⟨env', h, fun _ _ => rfl⟩
    · rw [Function.update_comm (Ne.symm hk)]
      obtain ⟨env₁, hrun, hsame⟩ := ih (fun b hb => hread b (List.mem_cons_of_mem _ hb)) h
      refine ⟨env₁, hrun, fun j hj => hsame j ?_⟩
      rcases hj with hj | ⟨b, hb, rfl⟩
      · exact .inl hj
      · rcases List.mem_cons.mp hb with rfl | hb
        · exact .inl hk
        · exact .inr ⟨b, hb, rfl⟩

/-- Moves that do what they would do at once agree. -/
theorem agree_of_run [Nontrivial ν]
    (h : ∀ e env', run L (full e) = some env' → ∀ m ∈ L, env' m.1 = m.2.read (full e)) :
    L.Pairwise Agree := by
  induction L with
  | nil => exact .nil
  | cons m L ih =>
    have hself : m ∈ m :: L := List.mem_cons_self
    have hin : ∀ b ∈ L, b ∈ m :: L := fun _ => List.mem_cons_of_mem m
    have hread : ∀ b ∈ L, b.2 = .slot m.1 → m.2 = .slot m.1 := by
      intro b hb hbm
      by_contra hne
      obtain ⟨x, y, hxy⟩ := exists_pair_ne ν
      -- the first move overwrites what distinguishes the two starts
      obtain ⟨e', he'⟩ := exists_run (m :: L) fun _ => x
      have hsame : run (m :: L) (full (Function.update (fun _ => x) m.1 y)) = some (full e') := by
        rw [← he', ← update_full, run, run, Source.read_update hne]
        simp only [Function.update_idem]
      have h₁ := h _ _ he' b (hin b hb)
      have h₂ := h _ _ hsame b (hin b hb)
      rw [h₁, hbm] at h₂
      simp only [Source.read, full, Function.update_self, Option.some.injEq] at h₂
      exact hxy h₂
    have hone : ∀ b ∈ L, m.1 = b.1 → m.2 = b.2 := by
      intro b hb hbm
      refine Source.ext_full fun e => ?_
      obtain ⟨e', he'⟩ := exists_run (m :: L) e
      rw [← h _ _ he' m hself, ← h _ _ he' b (hin b hb), hbm]
    refine List.pairwise_cons.mpr ⟨fun b hb => ⟨hread b hb, hone b hb⟩, ih fun e env' hrun => ?_⟩
    by_cases hm : m.2 = .slot m.1
    · have hnothing : run (m :: L) (full e) = some env' := by
        have hsame : Function.update (full e) m.1 (some (e m.1)) = full e :=
          Function.update_eq_self m.1 (full e)
        have hval : Source.read (full e) (.slot m.1) = some (e m.1) := rfl
        rw [run, hm, hval, Option.bind_some, hsame]
        exact hrun
      exact fun b hb => h _ _ hnothing b (hin b hb)
    · obtain ⟨v, hv⟩ := m.2.read_full e
      obtain ⟨env₁, hrun₁, hsame⟩ := run_update (k := m.1) (o := some v)
        (fun b hb hbm => hm (hread b hb hbm)) hrun
      have hall : run (m :: L) (full e) = some env₁ := by
        rw [run, hv, Option.bind_some]
        exact hrun₁
      intro b hb
      rw [← hsame b.1 (.inr ⟨b, hb, rfl⟩)]
      exact h _ _ hall b (hin b hb)

end Moves
