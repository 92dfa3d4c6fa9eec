import Mathlib.Logic.Function.Basic
import Mathlib.Tactic.Common

/-!
# Singly linked lists in a store

A list that is threaded through the cells of a store: the head is a field of its own, every cell
holds the link to the next one, and the last link is null. A place that holds a link is a *slot*,
the head or a cell; a walk along the list keeps the slot in front of the cell it stands at, so that
it can replace the rest of the list.
-/

namespace Chain

variable {α : Type} {null p q : α} {next next' : α → α} {A B L : List α}

/-- From `p` the links lead along `L` to the null link. -/
def Leads (null : α) (next : α → α) : α → List α → Prop
  | p, [] => p = null
  | p, c :: L => p = c ∧ c ≠ null ∧ Leads null next (next c) L

theorem Leads.nil_iff : Leads null next p [] ↔ p = null := Iff.rfl

theorem Leads.cons_iff {c : α} :
    Leads null next p (c :: L) ↔ p = c ∧ c ≠ null ∧ Leads null next (next c) L := Iff.rfl

/-- Only the cells of a list are read. -/
theorem Leads.congr (h : Leads null next p L) (hl : ∀ c ∈ L, next' c = next c) :
    Leads null next' p L := by
  induction L generalizing p with
  | nil => exact h
  | cons c L ih =>
    obtain ⟨hp, hc, h⟩ := h
    refine ⟨hp, hc, ?_⟩
    rw [hl c List.mem_cons_self]
    exact ih h fun d hd => hl d (List.mem_cons_of_mem _ hd)

theorem Leads.ne_null (h : Leads null next p L) : ∀ c ∈ L, c ≠ null := by
  induction L generalizing p with
  | nil => exact fun c hc => nomatch hc
  | cons d L ih =>
    intro c hc
    rcases List.mem_cons.mp hc with rfl | hc
    · exact h.2.1
    · exact ih h.2.2 c hc

/-- The link is null at the end of the list only. -/
theorem Leads.eq_null_iff (h : Leads null next p L) : p = null ↔ L = [] := by
  cases L with
  | nil => exact ⟨fun _ => rfl, fun _ => h⟩
  | cons c L => exact ⟨fun hp => absurd (h.1.symm.trans hp) h.2.1, fun hL => nomatch hL⟩

theorem Leads.unique (hA : Leads null next p A) (hB : Leads null next p B) : A = B := by
  induction A generalizing p B with
  | nil => exact (hB.eq_null_iff.mp hA).symm
  | cons a A ih =>
    cases B with
    | nil => cases hA.eq_null_iff.mp hB
    | cons b B =>
      obtain ⟨rfl, -, hA⟩ := hA
      obtain ⟨rfl, -, hB⟩ := hB
      rw [ih hA hB]

/-- Replace the links behind the cell `a`. -/
theorem Leads.update [DecidableEq α] {a : α} (h : Leads null next p (A ++ a :: B)) (ha : a ∉ A)
    (hL : Leads null (Function.update next a q) q L) :
    Leads null (Function.update next a q) p (A ++ a :: L) := by
  induction A generalizing p with
  | nil =>
    obtain ⟨hp, hnull, -⟩ := h
    refine ⟨hp, hnull, ?_⟩
    rwa [Function.update_self]
  | cons b A ih =>
    obtain ⟨hp, hnull, h⟩ := h
    obtain ⟨hab, ha⟩ := List.ne_and_not_mem_of_not_mem_cons ha
    refine ⟨hp, hnull, ?_⟩
    rw [Function.update_of_ne hab.symm]
    exact ih h ha

/-! ## Stores -/

/-- A head and the links of the cells. -/
structure Store (α : Type) where
  head : α
  next : α → α

namespace Store

variable {s : Store α}

/-- The link in a slot: the head, or a cell. -/
def get (s : Store α) : Option α → α
  | none => s.head
  | some c => s.next c

def IsList (null : α) (s : Store α) (L : List α) : Prop := Leads null s.next s.head L

/-- The slot behind the first cells of a list holds the link to the others. -/
theorem IsList.leads_append (h : s.IsList null (A ++ B)) :
    Leads null s.next (s.get A.getLast?) B := by
  suffices ∀ (p : α) (slot : Option α), s.get slot = p → Leads null s.next p (A ++ B) →
      Leads null s.next (s.get (A.getLast?.or slot)) B by
    simpa using this s.head none rfl h
  clear h
  induction A with
  | nil =>
    intro p slot hp h
    rw [List.getLast?_nil, Option.none_or, hp]
    exact h
  | cons a A ih =>
    rintro p slot hp ⟨rfl, -, h⟩
    have hrest := ih (s.next p) (some p) rfl h
    cases A with
    | nil => exact hrest
    | cons b A =>
      rw [List.getLast?_cons_cons]
      rcases hlast : (b :: A).getLast? with _ | c
      · simp at hlast
      · rwa [hlast] at hrest

variable [DecidableEq α]

/-- Write a slot. -/
def set (s : Store α) : Option α → α → Store α
  | none, p => { s with head := p }
  | some c, p => { s with next := Function.update s.next c p }

theorem set_comm {slot : Option α} {c : α} (h : slot ≠ some c) (p q : α) :
    (s.set slot p).set (some c) q = (s.set (some c) q).set slot p := by
  cases slot with
  | none => rfl
  | some d =>
    have hdc : c ≠ d := fun hcd => h (hcd ▸ rfl)
    simp only [set, Function.update_comm hdc]

/-- Replace the rest of a list behind its first cells. -/
theorem IsList.splice (h : s.IsList null (A ++ B)) (hA : A.Nodup)
    (hL : Leads null s.next p L) (hd : ∀ c ∈ A, c ∉ L) :
    (s.set A.getLast? p).IsList null (A ++ L) := by
  rcases List.eq_nil_or_concat A with rfl | ⟨A, a, rfl⟩
  · exact hL
  · rw [List.concat_eq_append] at h hA hd ⊢
    rw [List.getLast?_concat]
    have ha : a ∉ A := fun ha => (List.nodup_append.mp hA).2.2 a ha a (by simp) rfl
    rw [IsList, List.append_assoc] at h ⊢
    refine h.update ha (hL.congr fun c hc => ?_)
    have hca : c ≠ a := by
      rintro rfl
      exact hd c (by simp) hc
    exact Function.update_of_ne hca _ _

end Store

end Chain
