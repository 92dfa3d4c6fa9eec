import Mathlib.Data.List.Nodup
import Mathlib.Data.List.Perm.Basic
import Mathlib.Tactic.Common

/-!
# Owners of memory

A free list of chunks of `κ`, together with a map that gives every chunk in use its owner in `ω`. The
map is not part of the program: it says which client a chunk was handed out to, so that two clients
never share one and a chunk of a client is never free.
-/

namespace Ownership

variable {κ ω : Type} [DecidableEq κ] {own : κ → Option ω} {free free' B : List κ} {o : ω} {c : κ}

/-- The free list has no duplicates and no owner. -/
structure Free (own : κ → Option ω) (free : List κ) : Prop where
  nodup : free.Nodup
  unowned : ∀ c ∈ free, own c = none

/-- The chunks of `B` go to the owner `o`. -/
def assign (own : κ → Option ω) (B : List κ) (o : ω) (c : κ) : Option ω :=
  if c ∈ B then some o else own c

/-- The chunks of `B` lose their owners. -/
def clear (own : κ → Option ω) (B : List κ) (c : κ) : Option ω := if c ∈ B then none else own c

theorem assign_of_mem (h : c ∈ B) : assign own B o c = some o := if_pos h

theorem assign_of_notMem (h : c ∉ B) : assign own B o c = own c := if_neg h

theorem clear_of_notMem (h : c ∉ B) : clear own B c = own c := if_neg h

omit [DecidableEq κ] in
theorem Free.notMem (h : Free own free) (hc : own c = some o) : c ∉ free := by
  intro hm
  rw [h.unowned c hm] at hc
  cases hc

/-- Taking a block from the free list. -/
theorem Free.take (h : Free own free) (hp : free.Perm (B ++ free')) :
    Free (assign own B o) free' := by
  have hn := (hp.nodup_iff.mp h.nodup)
  refine ⟨(List.nodup_append.mp hn).2.1, fun c hc => ?_⟩
  have hcB : c ∉ B := fun hB => (List.nodup_append.mp hn).2.2 c hB c hc rfl
  rw [assign_of_notMem hcB]
  exact h.unowned c (hp.mem_iff.mpr (List.mem_append_right _ hc))

/-- Giving an owned block back. -/
theorem Free.give (h : Free own free) (hB : B.Nodup) (hown : ∀ c ∈ B, own c ≠ none)
    (hp : free'.Perm (B ++ free)) : Free (clear own B) free' := by
  refine ⟨hp.nodup_iff.mpr (List.nodup_append.mpr ⟨hB, h.nodup, ?_⟩), fun c hc => ?_⟩
  · rintro c hcB _ hcf rfl
    exact hown c hcB (h.unowned c hcf)
  · unfold clear
    split
    · rfl
    · rename_i hcB
      exact h.unowned c ((List.mem_append.mp (hp.mem_iff.mp hc)).resolve_left hcB)

end Ownership
