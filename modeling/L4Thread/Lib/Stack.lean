import Mathlib.Algebra.Order.Ring.Nat
import Mathlib.Data.List.Nodup
import Mathlib.Logic.Function.Basic
import Mathlib.Tactic.Common

/-!
# Intrusive linear lists

`Seg next head L tail`: from the pointer `head` the nodes of `L` follow each other along the `next`
pointers, and the last one points at `tail`. A stack is such a segment that ends with a null pointer.
`DSeg` is the same for doubly linked nodes, the first of which points back at `p`.
-/

namespace Stack

variable {α : Type} {next next' : α → Option α} {head mid tail : Option α} {L A B : List α} {a x : α}

/-- The nodes of `L` lead from `head` to `tail`. -/
def Seg (next : α → Option α) : Option α → List α → Option α → Prop
  | head, [], tail => head = tail
  | head, a :: L, tail => head = some a ∧ Seg next (next a) L tail

/-- The nodes of `L` are linked in this order from `head`. -/
def IsStack (next : α → Option α) (head : Option α) (L : List α) : Prop := Seg next head L none

/-- A segment depends on the pointers of its members only. -/
theorem Seg.congr (h : Seg next head L tail) (hn : ∀ u ∈ L, next' u = next u) :
    Seg next' head L tail := by
  induction L generalizing head with
  | nil => exact h
  | cons a L ih =>
    obtain ⟨hhead, hL⟩ := h
    refine ⟨hhead, ?_⟩
    rw [hn a (List.mem_cons_self ..)]
    exact ih hL fun u hu => hn u (List.mem_cons_of_mem _ hu)

theorem seg_append_iff :
    Seg next head (A ++ B) tail ↔ ∃ mid, Seg next head A mid ∧ Seg next mid B tail := by
  induction A generalizing head with
  | nil =>
    constructor
    · exact fun h => ⟨head, rfl, h⟩
    · rintro ⟨mid, rfl, h⟩
      exact h
  | cons a A ih =>
    rw [List.cons_append, Seg, ih]
    constructor
    · rintro ⟨hhead, mid, hA, hB⟩
      exact ⟨mid, ⟨hhead, hA⟩, hB⟩
    · rintro ⟨mid, ⟨hhead, hA⟩, hB⟩
      exact ⟨hhead, mid, hA, hB⟩

theorem Seg.append (h : Seg next head A mid) (h' : Seg next mid B tail) :
    Seg next head (A ++ B) tail :=
  seg_append_iff.2 ⟨mid, h, h'⟩

theorem IsStack.congr (h : IsStack next head L) (hn : ∀ u ∈ L, next' u = next u) :
    IsStack next' head L :=
  Seg.congr h hn

theorem IsStack.nil : IsStack next none [] := rfl

theorem IsStack.head_eq (h : IsStack next head L) : head = L.head? := by
  cases L with
  | nil => exact h
  | cons a L => exact h.1

theorem IsStack.eq_nil_iff (h : IsStack next head L) : head = none ↔ L = [] := by
  rw [h.head_eq, List.head?_eq_none_iff]

/-- A stack is entered through its first node. -/
theorem IsStack.exists_cons (h : IsStack next (some a) L) :
    ∃ L', L = a :: L' ∧ IsStack next (next a) L' := by
  cases L with
  | nil => cases h
  | cons b L =>
    obtain ⟨hb, hL⟩ := h
    cases hb
    exact ⟨L, rfl, hL⟩

/-- A new node is put in front. -/
theorem IsStack.push [DecidableEq α] (h : IsStack next head L) (hx : x ∉ L) :
    IsStack (Function.update next x head) (some x) (x :: L) := by
  refine ⟨rfl, ?_⟩
  rw [Function.update_self]
  refine h.congr fun u hu => Function.update_of_ne ?_ _ _
  rintro rfl
  exact hx hu

/-- The last node points at something else. -/
theorem Seg.setNext [DecidableEq α] {q : α} (h : Seg next head (A ++ [q]) tail) (hq : q ∉ A)
    (tail' : Option α) : Seg (Function.update next q tail') head (A ++ [q]) tail' := by
  obtain ⟨mid, hA, hhead, -⟩ := seg_append_iff.1 h
  refine seg_append_iff.2 ⟨mid, hA.congr fun u hu => ?_, hhead, Function.update_self ..⟩
  refine Function.update_of_ne ?_ ..
  rintro rfl
  exact hq hu

/-! ## Doubly linked lists -/

variable {prev prev' : α → Option α} {p p' q : Option α}

/-- The nodes of `L` lead from `head` to `tail`, and each of them points back at the one before. -/
def DSeg (next prev : α → Option α) : Option α → Option α → List α → Option α → Prop
  | _, head, [], tail => head = tail
  | p, head, a :: L, tail => head = some a ∧ prev a = p ∧ DSeg next prev (some a) (next a) L tail

theorem DSeg.congr (h : DSeg next prev p head L tail) (hn : ∀ u ∈ L, next' u = next u)
    (hp : ∀ u ∈ L, prev' u = prev u) : DSeg next' prev' p head L tail := by
  induction L generalizing head p with
  | nil => exact h
  | cons a L ih =>
    obtain ⟨hhead, hprev, hL⟩ := h
    refine ⟨hhead, (hp a (List.mem_cons_self ..)).trans hprev, ?_⟩
    rw [hn a (List.mem_cons_self ..)]
    exact ih hL (fun u hu => hn u (List.mem_cons_of_mem _ hu))
      fun u hu => hp u (List.mem_cons_of_mem _ hu)

/-- The last node of a list, or what is in front of it. -/
def lastOr (L : List α) (p : Option α) : Option α := L.getLast?.or p

theorem lastOr_cons (a : α) (L : List α) (p : Option α) : lastOr (a :: L) p = lastOr L (some a) := by
  cases L with
  | nil => rfl
  | cons b L =>
    rw [lastOr, lastOr, List.getLast?_cons_cons, List.getLast?_cons]
    rfl

theorem dseg_append_iff :
    DSeg next prev p head (A ++ B) tail ↔
      ∃ mid, DSeg next prev p head A mid ∧ DSeg next prev (lastOr A p) mid B tail := by
  induction A generalizing head p with
  | nil =>
    constructor
    · exact fun h => ⟨head, rfl, h⟩
    · rintro ⟨mid, rfl, h⟩
      exact h
  | cons a A ih =>
    rw [List.cons_append, DSeg, ih, lastOr_cons]
    constructor
    · rintro ⟨hhead, hprev, mid, hA, hB⟩
      exact ⟨mid, ⟨hhead, hprev, hA⟩, hB⟩
    · rintro ⟨mid, ⟨hhead, hprev, hA⟩, hB⟩
      exact ⟨hhead, hprev, mid, hA, hB⟩

/-- A doubly linked list, from the pointer to its first node. -/
structure IsDList (next prev : α → Option α) (head : Option α) (L : List α) : Prop where
  seg : DSeg next prev none head L none
  nodup : L.Nodup

namespace IsDList

theorem congr (h : IsDList next prev head L) (hn : ∀ u ∈ L, next' u = next u)
    (hp : ∀ u ∈ L, prev' u = prev u) : IsDList next' prev' head L :=
  ⟨h.seg.congr hn hp, h.nodup⟩

theorem nil : IsDList next prev none [] := ⟨rfl, List.nodup_nil⟩

theorem head_eq (h : IsDList next prev head L) : head = L.head? := by
  cases L with
  | nil => exact h.seg
  | cons a L => exact h.seg.1

/-- What the two pointers of a member lead to. -/
theorem eq_of_append (h : IsDList next prev head (A ++ x :: B)) :
    next x = B.head? ∧ prev x = A.getLast? := by
  obtain ⟨mid, -, -, hprev, hB⟩ := dseg_append_iff.1 h.seg
  refine ⟨?_, hprev.trans (Option.or_none ..)⟩
  cases B with
  | nil => exact hB
  | cons b B => exact hB.1

theorem next_mem (h : IsDList next prev head L) (hx : x ∈ L) (hn : next x = some a) : a ∈ L := by
  obtain ⟨A, B, rfl⟩ := List.append_of_mem hx
  rw [h.eq_of_append.1] at hn
  exact List.mem_append_right _ (List.mem_cons_of_mem _ (List.mem_of_mem_head? hn))

theorem prev_mem (h : IsDList next prev head L) (hx : x ∈ L) (hp : prev x = some a) : a ∈ L := by
  obtain ⟨A, B, rfl⟩ := List.append_of_mem hx
  rw [h.eq_of_append.2] at hp
  exact List.mem_append_left _ (List.mem_of_getLast? hp)

theorem head_mem (h : IsDList next prev (some a) L) : a ∈ L :=
  List.mem_of_mem_head? h.head_eq.symm

end IsDList

variable [DecidableEq α]

/-- A write through a pointer that may be null. -/
def set (f : α → Option α) (i v : Option α) : α → Option α :=
  match i with
  | none => f
  | some a => Function.update f a v

theorem set_of_ne {f : α → Option α} {i v : Option α} (h : i ≠ some a) : set f i v a = f a := by
  cases i with
  | none => rfl
  | some b => exact Function.update_of_ne (fun e => h (congrArg some e.symm)) ..

/-- Writing a value back changes nothing at its place. -/
theorem set_apply_self {f : α → Option α} {i : Option α} : set f i (f a) a = f a := by
  cases i with
  | none => rfl
  | some b =>
    rw [set, Function.update_apply]
    exact ite_self (f a)

/-- The first node points back at something else. -/
theorem DSeg.setPrev (h : DSeg next prev p head L tail) (hL : L.Nodup) (hne : L ≠ []) :
    DSeg next (set prev head p') p' head L tail := by
  cases L with
  | nil => exact absurd rfl hne
  | cons a L =>
    obtain ⟨rfl, -, hrest⟩ := h
    refine ⟨rfl, Function.update_self .., hrest.congr (fun _ _ => rfl) fun u hu => ?_⟩
    refine Function.update_of_ne ?_ ..
    rintro rfl
    exact (List.nodup_cons.1 hL).1 hu

/-- The last node points at something else. -/
theorem DSeg.setNext {A' : List α} {q : α} (h : DSeg next prev p head (A' ++ [q]) tail)
    (hq : q ∉ A') (tail' : Option α) :
    DSeg (Function.update next q tail') prev p head (A' ++ [q]) tail' := by
  obtain ⟨mid, hA, hhead, hprev, -⟩ := dseg_append_iff.1 h
  refine dseg_append_iff.2 ⟨mid, hA.congr (fun u hu => ?_) (fun _ _ => rfl), hhead, hprev, ?_⟩
  · refine Function.update_of_ne ?_ ..
    rintro rfl
    exact hq hu
  · exact Function.update_self ..

namespace IsDList

/-- A new node in front. -/
theorem push (h : IsDList next prev head L) (hx : x ∉ L) :
    IsDList (Function.update next x head) (Function.update (set prev head (some x)) x none) (some x)
      (x :: L) := by
  refine ⟨⟨rfl, Function.update_self .., ?_⟩, List.nodup_cons.2 ⟨hx, h.nodup⟩⟩
  rw [Function.update_self]
  have hne : ∀ u ∈ L, u ≠ x := fun u hu e => hx (e ▸ hu)
  have hseg : DSeg next (set prev head (some x)) (some x) head L none := by
    cases L with
    | nil => exact h.seg
    | cons a L => exact h.seg.setPrev h.nodup (List.cons_ne_nil a L)
  exact hseg.congr (fun u hu => Function.update_of_ne (hne u hu) ..)
    fun u hu => Function.update_of_ne (hne u hu) ..

/-- The first node is taken off. -/
theorem pop (h : IsDList next prev head (x :: L)) :
    IsDList next (set prev (next x) none) (next x) L := by
  obtain ⟨-, -, hrest⟩ := h.seg
  have hL := (List.nodup_cons.1 h.nodup).2
  refine ⟨?_, hL⟩
  cases L with
  | nil => exact hrest
  | cons a L => exact hrest.setPrev hL (List.cons_ne_nil a L)

/-- A node is taken out. -/
theorem remove (h : IsDList next prev head L) (hx : x ∈ L) :
    IsDList (if head = some x then next else set next (prev x) (next x))
      (set prev (next x) (prev x)) (if head = some x then next x else head) (L.erase x) := by
  obtain ⟨A, B, rfl⟩ := List.append_of_mem hx
  obtain ⟨hA, hxB, hdisj⟩ := List.nodup_append.1 h.nodup
  obtain ⟨hxB, hB⟩ := List.nodup_cons.1 hxB
  have hxA : x ∉ A := fun hm => hdisj x hm x (List.mem_cons_self ..) rfl
  have hAB : ∀ {u}, u ∈ A → u ∉ B := fun hu hm => hdisj _ hu _ (List.mem_cons_of_mem _ hm) rfl
  obtain ⟨mid, hsegA, rfl, hprev, hsegB⟩ := dseg_append_iff.1 h.seg
  rw [List.erase_append_right _ hxA, List.erase_cons_head]
  -- the pointers of `x` lead to the ends of the two parts
  have hnext : ∀ u ∉ B, next x ≠ some u := by
    intro u hu hn
    cases B with
    | nil =>
      rw [hn] at hsegB
      cases hsegB
    | cons b B =>
      rw [hsegB.1] at hn
      cases hn
      exact hu (List.mem_cons_self ..)
  have hprevA : ∀ u ∉ A, prev x ≠ some u := by
    intro u hu hp
    rw [hprev, lastOr, Option.or_none] at hp
    exact hu (List.mem_of_getLast? hp)
  refine ⟨dseg_append_iff.2 ⟨next x, ?_, ?_⟩, h.nodup.sublist ?_⟩
  · obtain rfl | ⟨A', q, rfl⟩ := List.eq_nil_or_concat' A
    · exact if_pos hsegA
    · have hhead : head ≠ some x := by
        rw [h.head_eq]
        intro hm
        cases A' with
        | nil =>
          cases hm
          exact hxA (List.mem_singleton_self x)
        | cons a A' =>
          cases hm
          exact hxA (List.mem_cons_self ..)
      have hq : prev x = some q := by rw [hprev, lastOr, List.getLast?_concat, Option.some_or]
      have hqA : q ∉ A' := by
        intro hm
        exact (List.nodup_append.1 hA).2.2 q hm q (List.mem_singleton_self q) rfl
      rw [if_neg hhead, if_neg hhead, hq]
      exact (hsegA.setNext hqA (next x)).congr (fun _ _ => rfl)
        fun u hu => set_of_ne (hnext u (hAB hu))
  · have hseg : DSeg next (set prev (next x) (prev x)) (lastOr A none) (next x) B none := by
      cases B with
      | nil => exact hsegB
      | cons b B =>
        rw [hprev]
        exact hsegB.setPrev hB (List.cons_ne_nil b B)
    refine hseg.congr (fun u hu => ?_) fun _ _ => rfl
    split
    · rfl
    · exact set_of_ne (hprevA u fun hm => hAB hm hu)
  · exact (List.sublist_cons_self x B).append_left A

end IsDList

end Stack
