import Mathlib.Data.List.Chain
import Mathlib.Data.List.Nodup
import Mathlib.Data.List.Perm.Basic
import Mathlib.Logic.Function.Basic
import Mathlib.Logic.Relation
import Mathlib.Tactic.Common

/-!
# Intrusive circular lists

Nodes of `α` carry a `next` and a `prev` pointer, and a list is entered through a head pointer that
is null for the empty list. `enqueueTail`, `enqueueHead` and `dequeue` perform the pointer writes
of the usual macros one by one, with `none` for a dereference of a null pointer.

`IsRing l head L` says that the nodes of `L`, in this order from the head, are linked into one
circle. `Rings l heads Q` is a family of such circles over the same link fields, one for each head
pointer, no two of which share a node.
-/

namespace Ring

/-- The two pointers of a node. -/
@[ext]
structure Link (α : Type) where
  next : Option α
  prev : Option α
  deriving DecidableEq

variable {α : Type} {l l' : α → Link α} {head head' : Option α} {L A B : List α} {u v x y a : α}

/-! ## Circles -/

/-- `v` follows `u`. -/
def Linked (l : α → Link α) (u v : α) : Prop := (l u).next = some v ∧ (l v).prev = some u

/-- The nodes of `L` form a circle in this cyclic order. -/
structure Cyc (l : α → Link α) (L : List α) : Prop where
  nodup : L.Nodup
  chain : (L ++ L.head?.toList).IsChain (Linked l)

/-- The nodes of `L` form a circle entered at `head`. -/
structure IsRing (l : α → Link α) (head : Option α) (L : List α) : Prop where
  head_eq : head = L.head?
  cyc : Cyc l L

theorem Linked.congr (hu : l' u = l u) (hv : l' v = l v) (h : Linked l u v) : Linked l' u v := by
  simpa only [Linked, hu, hv] using h

/-- A circle depends on the links of its members only. -/
theorem Cyc.congr (h : Cyc l L) (hl : ∀ u ∈ L, l' u = l u) : Cyc l' L := by
  refine ⟨h.nodup, h.chain.imp_of_mem_imp fun u v hu hv => Linked.congr (hl u ?_) (hl v ?_)⟩
  all_goals
    cases L with
    | nil => simp_all
    | cons a t => simp_all [List.mem_append]; tauto

/-- Along an arc, the `next` pointer of the last node and the `prev` pointer of the first node do
not matter. -/
theorem arc_congr (hn : L.Nodup) (hc : L.IsChain (Linked l))
    (hnext : ∀ u ∈ L, L.getLast? ≠ some u → (l' u).next = (l u).next)
    (hprev : ∀ v ∈ L, L.head? ≠ some v → (l' v).prev = (l v).prev) :
    L.IsChain (Linked l') := by
  rw [List.isChain_iff_forall_rel_of_append_cons_cons] at hc ⊢
  rintro u v l₁ l₂ rfl
  obtain ⟨h1, h2⟩ := hc rfl
  refine ⟨(hnext u (by simp) ?_).trans h1, (hprev v (by simp) ?_).trans h2⟩
  · intro h
    rw [List.getLast?_append_of_ne_nil _ (by simp), List.getLast?_cons_cons] at h
    have hu : u ∈ v :: l₂ := List.mem_of_getLast? h
    have := (List.nodup_append.mp hn).2.1
    exact (List.nodup_cons.mp this).1 hu
  · intro h
    cases l₁ with
    | nil => simp_all
    | cons b l₁ => simp_all

theorem Cyc.nil : Cyc l [] := ⟨by simp, by simp⟩

theorem Cyc.cons_iff :
    Cyc l (a :: L) ↔ (a :: L).Nodup ∧ (a :: (L ++ [a])).IsChain (Linked l) :=
  ⟨fun h => ⟨h.nodup, by simpa using h.chain⟩, fun h => ⟨h.1, by simpa using h.2⟩⟩

theorem Cyc.singleton_iff : Cyc l [x] ↔ l x = ⟨some x, some x⟩ := by
  rw [Cyc.cons_iff]
  cases hx : l x with
  | mk n p => simp [Linked, hx]

theorem Cyc.rotate (h : Cyc l (A ++ B)) : Cyc l (B ++ A) := by
  cases A with
  | nil => simpa using h
  | cons a A =>
    cases B with
    | nil => simpa using h
    | cons b B =>
      rw [List.cons_append, Cyc.cons_iff] at h ⊢
      refine ⟨(@List.nodup_append_comm _ (a :: A) _).mp h.1, ?_⟩
      -- the circle is cut at `a` and at `b`; both cuts have the same two arcs
      have hc := h.2
      rw [List.append_assoc, List.cons_append, List.isChain_cons_split] at hc ⊢
      exact ⟨hc.2, hc.1⟩

theorem Cyc.rotate_mem (h : Cyc l L) (hx : x ∈ L) :
    ∃ A B, L = A ++ x :: B ∧ Cyc l (x :: (B ++ A)) := by
  obtain ⟨A, B, rfl⟩ := List.append_of_mem hx
  exact ⟨A, B, rfl, h.rotate⟩

/-- A member is followed by a member. -/
theorem Cyc.linked_next (h : Cyc l L) (hx : x ∈ L) : ∃ n ∈ L, Linked l x n := by
  obtain ⟨A, B, rfl, hr⟩ := h.rotate_mem hx
  obtain ⟨-, hc⟩ := Cyc.cons_iff.mp hr
  cases hBA : B ++ A with
  | nil =>
    simp only [hBA, List.nil_append, List.isChain_cons_cons] at hc
    exact ⟨x, hx, hc.1⟩
  | cons n t =>
    simp only [hBA, List.cons_append, List.isChain_cons_cons] at hc
    have hn : n ∈ B ++ A := by simp [hBA]
    refine ⟨n, ?_, hc.1⟩
    simp only [List.mem_append, List.mem_cons] at hn ⊢
    tauto

/-- The node behind a member is a member. -/
theorem Cyc.next_mem (h : Cyc l L) (hx : x ∈ L) : ∃ n ∈ L, (l x).next = some n := by
  obtain ⟨n, hn, hlink⟩ := h.linked_next hx
  exact ⟨n, hn, hlink.1⟩

theorem Cyc.next_eq_self_iff (h : Cyc l L) (hx : x ∈ L) : (l x).next = some x ↔ L = [x] := by
  constructor
  · intro hn
    obtain ⟨A, B, rfl, hr⟩ := h.rotate_mem hx
    obtain ⟨hnd, hc⟩ := Cyc.cons_iff.mp hr
    cases hBA : B ++ A with
    | nil =>
      obtain ⟨rfl, rfl⟩ := List.append_eq_nil_iff.mp hBA
      rfl
    | cons n t =>
      simp only [hBA, List.cons_append, List.isChain_cons_cons, List.nodup_cons] at hc hnd
      have hnx : some x = some n := hn.symm.trans hc.1.1
      simp_all
  · rintro rfl
    simp [Cyc.singleton_iff.mp h]

/-- A member follows a member. -/
theorem Cyc.linked_prev (h : Cyc l L) (hx : x ∈ L) : ∃ n ∈ L, Linked l n x := by
  obtain ⟨A, B, rfl, hr⟩ := h.rotate_mem hx
  obtain ⟨-, hc⟩ := Cyc.cons_iff.mp hr
  obtain ⟨T, n, hn⟩ := List.eq_nil_or_concat' (x :: (B ++ A)) |>.resolve_left (by simp)
  have hmem : n ∈ A ++ x :: B := by
    have hn' : n ∈ x :: (B ++ A) := by simp [hn]
    simp only [List.mem_append, List.mem_cons] at hn' ⊢
    tauto
  refine ⟨n, hmem, ?_⟩
  rw [← List.cons_append, hn, List.append_assoc, List.cons_append, List.isChain_append] at hc
  simpa using hc.2.1

/-- The node in front of a member is a member. -/
theorem Cyc.prev_mem (h : Cyc l L) (hx : x ∈ L) : ∃ n ∈ L, (l x).prev = some n := by
  obtain ⟨n, hn, hlink⟩ := h.linked_prev hx
  exact ⟨n, hn, hlink.2⟩

/-- The last node is in front of the first one. -/
theorem Cyc.prev_head (h : Cyc l (a :: L)) : (l a).prev = (a :: L).getLast? := by
  obtain ⟨T, p, hp⟩ := List.eq_nil_or_concat' (a :: L) |>.resolve_left (List.cons_ne_nil a L)
  have hc := (Cyc.cons_iff.mp h).2
  rw [← List.cons_append, hp, List.append_assoc, List.isChain_append] at hc
  rw [hp, List.getLast?_concat]
  have hpa : Linked l p a := by simpa using hc.2.1
  exact hpa.2

/-- Among three nodes or more the two neighbours of a node differ. -/
theorem Cyc.next_ne_prev (h : Cyc l L) (hx : x ∈ L) (hL : 2 < L.length) :
    (l x).next ≠ (l x).prev := by
  obtain ⟨A, B, rfl, hr⟩ := h.rotate_mem hx
  obtain ⟨hn, hc⟩ := Cyc.cons_iff.mp hr
  have hlen : 2 ≤ (B ++ A).length := by
    simp only [List.length_append, List.length_cons] at hL ⊢
    omega
  obtain ⟨T, p, hp⟩ := List.eq_nil_or_concat' (B ++ A) |>.resolve_left (by
    intro h
    rw [h] at hlen
    cases hlen)
  cases T with
  | nil =>
    rw [hp] at hlen
    simp at hlen
  | cons b T =>
    rw [hp, List.cons_append, List.cons_append, List.isChain_cons_cons] at hc
    have hpx : Linked l p x := by
      have hc' := hc.2
      rw [List.append_assoc, ← List.cons_append, List.isChain_append] at hc'
      simpa using hc'.2.1
    rw [hp, List.nodup_cons] at hn
    rw [hc.1.1, hpx.2]
    rintro ⟨⟩
    simp at hn

/-- `x` is found from the head pointer along the `next` pointers. -/
def Member (l : α → Link α) (head : Option α) (x : α) : Prop :=
  ∃ h, head = some h ∧ Relation.ReflTransGen (fun a b => (l a).next = some b) h x

theorem Cyc.reach (hc : (u :: L).IsChain (Linked l)) (hx : x ∈ u :: L) :
    Relation.ReflTransGen (fun a b => (l a).next = some b) u x := by
  induction L generalizing u with
  | nil =>
    obtain rfl := List.mem_singleton.mp hx
    exact .refl
  | cons v L ih =>
    rw [List.isChain_cons_cons] at hc
    rcases List.mem_cons.mp hx with rfl | hx
    · exact .refl
    · exact .head hc.1.1 (ih hc.2 hx)

/-- What is found from the head of a circle are its nodes. -/
theorem IsRing.member_iff (h : IsRing l head L) : Member l head x ↔ x ∈ L := by
  obtain ⟨rfl, hc⟩ := h
  constructor
  · rintro ⟨a, ha, hr⟩
    induction hr with
    | refl => exact List.mem_of_mem_head? ha
    | tail _ hn ih =>
      obtain ⟨n, hmem, hn'⟩ := hc.next_mem ih
      obtain rfl : n = _ := Option.some.inj (hn'.symm.trans hn)
      exact hmem
  · intro hx
    cases L with
    | nil => simp at hx
    | cons a L =>
      refine ⟨a, rfl, Cyc.reach (L := L) ?_ hx⟩
      have hchain := (Cyc.cons_iff.mp hc).2
      rw [← List.cons_append] at hchain
      exact hchain.left_of_append

/-- The list at `head` does not lead to `x`: it is no member, and no pointer of a member points at
it. -/
def Avoids (l : α → Link α) (head : Option α) (x : α) : Prop :=
  ¬Member l head x ∧ ∀ y, Member l head y → (l y).next ≠ some x ∧ (l y).prev ≠ some x

theorem IsRing.avoids_iff (h : IsRing l head L) : Avoids l head x ↔ x ∉ L := by
  constructor
  · exact fun ha hx => ha.1 (h.member_iff.mpr hx)
  · refine fun hx => ⟨fun hm => hx (h.member_iff.mp hm), fun y hy => ?_⟩
    have hyL := h.member_iff.mp hy
    obtain ⟨n, hn, hnext⟩ := h.cyc.next_mem hyL
    obtain ⟨m, hm, hprev⟩ := h.cyc.prev_mem hyL
    rw [hnext, hprev]
    constructor
    · rintro ⟨⟩
      exact hx hn
    · rintro ⟨⟩
      exact hx hm

/-- Moving the head pointer to a member turns the circle. -/
theorem IsRing.setHead (h : IsRing l head L) (hx : x ∈ L) :
    ∃ L', L'.Perm L ∧ IsRing l (some x) L' := by
  obtain ⟨A, B, rfl, hr⟩ := h.cyc.rotate_mem hx
  refine ⟨x :: (B ++ A), ?_, ⟨rfl, hr⟩⟩
  exact (@List.perm_append_comm _ (x :: B) A)

/-! ## Pointer writes -/

variable [DecidableEq α]

def setNext (l : α → Link α) (u : α) (v : Option α) : α → Link α :=
  Function.update l u { l u with next := v }

def setPrev (l : α → Link α) (u : α) (v : Option α) : α → Link α :=
  Function.update l u { l u with prev := v }

theorem setNext_next (l : α → Link α) (u w : α) (v : Option α) :
    (setNext l u v w).next = if w = u then v else (l w).next := by
  rcases eq_or_ne w u with rfl | h
  · simp [setNext]
  · simp [setNext, h]

theorem setPrev_prev (l : α → Link α) (u w : α) (v : Option α) :
    (setPrev l u v w).prev = if w = u then v else (l w).prev := by
  rcases eq_or_ne w u with rfl | h
  · simp [setPrev]
  · simp [setPrev, h]

@[simp] theorem setNext_prev (l : α → Link α) (u w : α) (v : Option α) :
    (setNext l u v w).prev = (l w).prev := by
  rcases eq_or_ne w u with rfl | h
  · simp [setNext]
  · simp [setNext, h]

@[simp] theorem setPrev_next (l : α → Link α) (u w : α) (v : Option α) :
    (setPrev l u v w).next = (l w).next := by
  rcases eq_or_ne w u with rfl | h
  · simp [setPrev]
  · simp [setPrev, h]

theorem setNext_of_ne (h : y ≠ u) (v : Option α) : setNext l u v y = l y := by
  simp [setNext, h]

theorem setPrev_of_ne (h : y ≠ u) (v : Option α) : setPrev l u v y = l y := by
  simp [setPrev, h]

/-- The two pointers of a node are written independently. -/
theorem setNext_setPrev_comm (l : α → Link α) (u v : α) (a b : Option α) :
    setNext (setPrev l u a) v b = setPrev (setNext l v b) u a := by
  funext y
  refine Link.ext ?_ ?_
  · rw [setNext_next, setPrev_next, setPrev_next, setNext_next]
  · rw [setNext_prev, setPrev_prev, setPrev_prev, setNext_prev]

/-! ## Operations -/

/-- Insert `x` between the last node and the node `h`, without touching the head pointer. -/
def insertBefore (l : α → Link α) (h x : α) : Option (α → Link α) :=
  let l := setNext l x (some h)
  let l := setPrev l x (l h).prev
  match (l h).prev with
  | none => none
  | some p =>
    let l := setNext l p (some x)
    some (setPrev l h (some x))

/-- `ENQUEUE_LIST_TAIL`. -/
def enqueueTail (head : Option α) (l : α → Link α) (x : α) :
    Option (Option α × (α → Link α)) :=
  match head with
  | none => some (some x, Function.update l x ⟨some x, some x⟩)
  | some h => (insertBefore l h x).map fun l => (some h, l)

/-- `ENQUEUE_LIST_HEAD`. -/
def enqueueHead (head : Option α) (l : α → Link α) (x : α) :
    Option (Option α × (α → Link α)) :=
  match head with
  | none => some (some x, Function.update l x ⟨some x, some x⟩)
  | some h => (insertBefore l h x).map fun l => (some x, l)

/-- `DEQUEUE_LIST`. The pointers of `x` are cleared only when `x` was alone. -/
def dequeue (head : Option α) (l : α → Link α) (x : α) : Option (Option α × (α → Link α)) :=
  if (l x).next = some x then
    some (none, Function.update l x ⟨none, none⟩)
  else
    let head := if head = some x then (l x).next else head
    match (l x).next with
    | none => none
    | some n =>
      let l := setPrev l n (l x).prev
      match (l x).prev with
      | none => none
      | some p => some (head, setNext l p (l x).next)

/-- The insertion with the neighbours written first. -/
theorem insertBefore_eq {h p : α} (hp : (l h).prev = some p) (hxh : h ≠ x) (hxp : p ≠ x) :
    insertBefore l h x =
      some (setNext (setPrev (setNext (setPrev l h (some x)) p (some x)) x (some p)) x
        (some h)) := by
  have hprev : (setNext l x (some h) h).prev = some p := by rw [setNext_prev, hp]
  have hprev' : (setPrev (setNext l x (some h)) x (some p) h).prev = some p := by
    rw [setPrev_prev, if_neg hxh, hprev]
  simp only [insertBefore, hprev, hprev']
  refine congrArg some (funext fun y => Link.ext ?_ ?_)
  · simp only [setPrev_next, setNext_next]
    split
    · rename_i hy
      rw [if_neg (hy ▸ hxp)]
    · rfl
  · simp only [setNext_prev, setPrev_prev]
    split
    · rename_i hy
      rw [if_neg (hy ▸ hxh)]
    · rfl

/-! ## Operations on circles -/

/-- Splitting the arc from the last node back to the head by a new node. -/
theorem Cyc.insertBefore (h : Cyc l (a :: L)) (hx : x ∉ a :: L) :
    ∃ l', insertBefore l a x = some l' ∧ Cyc l' (a :: L ++ [x]) ∧
      ∀ y ∉ x :: a :: L, l' y = l y := by
  obtain ⟨hn, hc⟩ := Cyc.cons_iff.mp h
  have hxa : x ≠ a := fun e => hx (by simp [e])
  -- `p` is the last node, possibly `a` itself
  obtain ⟨T, p, hp⟩ := List.eq_nil_or_concat' (a :: L) |>.resolve_left (by simp)
  have hpL : p ∈ a :: L := by simp [hp]
  have hxp : x ≠ p := fun e => hx (e ▸ hpL)
  have hpa : Linked l p a := by
    rw [← List.cons_append, hp, List.append_assoc, List.cons_append, List.isChain_append] at hc
    simpa using hc.2.1
  have harc : (a :: L).IsChain (Linked l) := by
    rw [← List.cons_append] at hc
    exact hc.left_of_append
  refine ⟨setPrev (setNext (setPrev (setNext l x (some a)) x (some p)) p (some x)) a (some x),
    ?_, ?_, ?_⟩
  · simp [Ring.insertBefore, setPrev_prev, hxa.symm, hpa.2]
  · rw [List.cons_append, Cyc.cons_iff, ← List.cons_append]
    refine ⟨List.nodup_append.mpr ⟨hn, by simp, ?_⟩, ?_⟩
    · rintro b hb _ hc rfl
      exact hx (List.mem_singleton.mp hc ▸ hb)
    · rw [← List.cons_append, ← List.cons_append]
      refine List.isChain_append.mpr
        ⟨List.isChain_append.mpr ⟨?_, List.IsChain.singleton x, ?_⟩, List.IsChain.singleton a, ?_⟩
      · refine arc_congr hn harc (fun u hu hlast => ?_) (fun v hv hhead => ?_)
        · have hup : u ≠ p := by
            rintro rfl
            simp [hp] at hlast
          have hux : u ≠ x := fun e => hx (e ▸ hu)
          simp [setNext_next, hup, hux]
        · have hva : v ≠ a := by
            rintro rfl
            simp at hhead
          have hvx : v ≠ x := fun e => hx (e ▸ hv)
          simp [setPrev_prev, hva, hvx]
      · rw [hp]
        simp [Linked, setNext_next, setPrev_prev, hxa]
      · rw [List.getLast?_concat]
        simp [Linked, setNext_next, setPrev_prev, hxp]
  · intro y hy
    simp only [List.mem_cons, not_or] at hy
    have hyp : y ≠ p := by
      rintro rfl
      simp only [List.mem_cons] at hpL
      tauto
    rw [setPrev_of_ne hy.2.1, setNext_of_ne hyp, setPrev_of_ne hy.1, setNext_of_ne hy.1]

theorem IsRing.enqueueTail (h : IsRing l head L) (hx : x ∉ L) :
    ∃ head' l', enqueueTail head l x = some (head', l') ∧ IsRing l' head' (L ++ [x]) ∧
      ∀ y ∉ x :: L, l' y = l y := by
  obtain ⟨rfl, hc⟩ := h
  cases L with
  | nil =>
    refine ⟨_, _, rfl, ⟨by simp, Cyc.singleton_iff.mpr (by simp)⟩, fun y hy => ?_⟩
    simp_all
  | cons a L =>
    obtain ⟨l', hl', hc', hf⟩ := hc.insertBefore hx
    exact ⟨some a, l', by simp [Ring.enqueueTail, hl'], ⟨by simp, hc'⟩, hf⟩

theorem IsRing.enqueueHead (h : IsRing l head L) (hx : x ∉ L) :
    ∃ head' l', enqueueHead head l x = some (head', l') ∧ IsRing l' head' (x :: L) ∧
      ∀ y ∉ x :: L, l' y = l y := by
  obtain ⟨rfl, hc⟩ := h
  cases L with
  | nil =>
    refine ⟨_, _, rfl, ⟨by simp, Cyc.singleton_iff.mpr (by simp)⟩, fun y hy => ?_⟩
    simp_all
  | cons a L =>
    obtain ⟨l', hl', hc', hf⟩ := hc.insertBefore hx
    exact ⟨some x, l', by simp [Ring.enqueueHead, hl'], ⟨by simp, hc'.rotate⟩, hf⟩

/-- Closing the circle over a removed node, which is put in front for the argument. -/
theorem Cyc.remove (h : Cyc l (x :: a :: L)) :
    ∃ p, (l x).next = some a ∧ (l x).prev = some p ∧ p ∈ a :: L ∧
      Cyc (setNext (setPrev l a (some p)) p (some a)) (a :: L) := by
  obtain ⟨hn, hc⟩ := Cyc.cons_iff.mp h
  obtain ⟨hx, hn'⟩ := List.nodup_cons.mp hn
  obtain ⟨T, p, hp⟩ := List.eq_nil_or_concat' (a :: L) |>.resolve_left (by simp)
  have hpL : p ∈ a :: L := by simp [hp]
  have hxa : Linked l x a := by
    simp only [List.cons_append, List.isChain_cons_cons] at hc
    exact hc.1
  have hpx : Linked l p x := by
    have := hc.tail
    rw [List.tail_cons, hp, List.append_assoc, List.cons_append, List.isChain_append] at this
    simpa using this.2.1
  refine ⟨p, hxa.1, hpx.2, hpL, Cyc.cons_iff.mpr ⟨hn', ?_⟩⟩
  have harc : (a :: L).IsChain (Linked l) := by
    have := hc.tail
    rw [List.tail_cons] at this
    exact this.left_of_append
  rw [← List.cons_append]
  refine List.isChain_append.mpr ⟨?_, by simp, ?_⟩
  · refine arc_congr hn' harc (fun u hu hlast => ?_) (fun v hv hhead => ?_)
    · have hup : u ≠ p := by
        rintro rfl
        simp [hp] at hlast
      simp [setNext_next, hup]
    · have hva : v ≠ a := by
        rintro rfl
        simp at hhead
      simp [setPrev_prev, hva]
  · rw [hp]
    simp [Linked, setNext_next, setPrev_prev]

/-- The head pointer is moved only if the node it points at is taken out. -/
theorem head_dequeue (hhead : head ≠ some x) (hnext : (l x).next ≠ some x)
    (h : dequeue head l x = some (head', l')) : head' = head := by
  rw [dequeue, if_neg hnext, if_neg hhead] at h
  dsimp only at h
  split at h
  · cases h
  split at h
  · cases h
  · cases h
    rfl

theorem IsRing.dequeue (h : IsRing l head L) (hx : x ∈ L) :
    ∃ head' l', dequeue head l x = some (head', l') ∧ IsRing l' head' (L.erase x) ∧
      ∀ y ∉ L, l' y = l y := by
  obtain ⟨rfl, hc⟩ := h
  by_cases hself : (l x).next = some x
  · obtain rfl := (hc.next_eq_self_iff hx).mp hself
    refine ⟨none, Function.update l x ⟨none, none⟩, by simp [Ring.dequeue, hself], ⟨?_, ?_⟩,
      fun y hy => ?_⟩
    · simp
    · simpa using Cyc.nil
    · simp_all
  · obtain ⟨A, B, rfl, hr⟩ := hc.rotate_mem hx
    have hxA : x ∉ A := fun hA => by
      have := (List.nodup_append.mp hc.nodup).2.2 x hA x (by simp)
      exact this rfl
    rw [List.erase_append_right _ hxA, List.erase_cons_head]
    cases hBA : B ++ A with
    | nil =>
      rw [hBA] at hr
      simp [Cyc.singleton_iff.mp hr] at hself
    | cons b t =>
      rw [hBA] at hr
      obtain ⟨p, hnx, hpx, hp, hcyc⟩ := hr.remove
      have hb : b ∈ B ++ A := by simp [hBA]
      have hxb : x ≠ b := by
        rintro rfl
        exact hself hnx
      refine ⟨(A ++ B).head?, setNext (setPrev l b (some p)) p (some b), ?_, ⟨rfl, ?_⟩, ?_⟩
      · have hhead : (if (A ++ x :: B).head? = some x then some b else (A ++ x :: B).head?) =
            (A ++ B).head? := by
          cases A with
          | nil =>
            simp only [List.append_nil] at hBA
            simp [hBA]
          | cons a A =>
            have : a ≠ x := fun e => hxA (by simp [e])
            simp [this]
        have hbx : ¬some b = some x := by simpa using hxb.symm
        simp only [Ring.dequeue, hnx, setPrev_next, setPrev_prev, hpx, if_neg hxb, if_neg hbx,
          hhead]
      · rw [← hBA] at hcyc
        exact hcyc.rotate
      · intro y hy
        have hpm : p ∈ B ++ A := by rw [hBA]; exact hp
        simp only [List.mem_append, List.mem_cons, not_or] at hy hb hpm
        rw [setNext_of_ne, setPrev_of_ne]
        · rintro rfl
          tauto
        · rintro rfl
          tauto

/-! ## Where the pointers lead -/

/-- Every pointer leads to a node in `P`. -/
def Within (P : α → Prop) (l : α → Link α) : Prop :=
  ∀ x y, (l x).next = some y ∨ (l x).prev = some y → P y

section Within

variable {P : α → Prop} {n : Option α}

theorem Within.setNext (h : Within P l) (hn : ∀ y, n = some y → P y) :
    Within P (setNext l u n) := by
  intro x y hy
  rw [setNext_next, setNext_prev] at hy
  rcases hy with hy | hy
  · split at hy
    · exact hn y hy
    · exact h x y (.inl hy)
  · exact h x y (.inr hy)

theorem Within.setPrev (h : Within P l) (hn : ∀ y, n = some y → P y) :
    Within P (setPrev l u n) := by
  intro x y hy
  rw [setPrev_prev, setPrev_next] at hy
  rcases hy with hy | hy
  · exact h x y (.inl hy)
  · split at hy
    · exact hn y hy
    · exact h x y (.inr hy)

theorem Within.update {k : Link α} (h : Within P l) (hn : ∀ y, k.next = some y → P y)
    (hp : ∀ y, k.prev = some y → P y) : Within P (Function.update l u k) := by
  intro x y hy
  rcases eq_or_ne x u with rfl | hx
  · rw [Function.update_self] at hy
    exact hy.elim (hn y) (hp y)
  · rw [Function.update_of_ne hx] at hy
    exact h x y hy

theorem Within.insertBefore (h : Within P l) (ha : P a) (hx : P x)
    (hl : insertBefore l a x = some l') : Within P l' := by
  have hs : ∀ {b y : α}, P b → some b = some y → P y := by
    rintro b y hb ⟨⟩
    exact hb
  have h1 : Within P (Ring.setNext l x (some a)) := h.setNext fun y => hs ha
  have h2 := h1.setPrev (u := x) fun y hy => h1 a y (.inr hy)
  simp only [Ring.insertBefore] at hl
  split at hl
  · cases hl
  · obtain rfl := Option.some.inj hl
    exact (h2.setNext fun y => hs hx).setPrev fun y => hs hx

theorem Within.alone (h : Within P l) (hx : P x) :
    Within P (Function.update l x ⟨some x, some x⟩) := by
  refine h.update ?_ ?_
  all_goals
    rintro y ⟨⟩
    exact hx

theorem Within.enqueueTail (h : Within P l) (hhead : ∀ y, head = some y → P y) (hx : P x)
    (hl : enqueueTail head l x = some (head', l')) :
    Within P l' ∧ ∀ y, head' = some y → P y := by
  cases head with
  | none =>
    cases hl
    refine ⟨h.alone hx, ?_⟩
    rintro y ⟨⟩
    exact hx
  | some a =>
    obtain ⟨k, hk, heq⟩ := Option.map_eq_some_iff.mp hl
    cases heq
    exact ⟨h.insertBefore (hhead a rfl) hx hk, hhead⟩

theorem Within.enqueueHead (h : Within P l) (hhead : ∀ y, head = some y → P y) (hx : P x)
    (hl : enqueueHead head l x = some (head', l')) :
    Within P l' ∧ ∀ y, head' = some y → P y := by
  have hhead' : ∀ y, some x = some y → P y := by
    rintro y ⟨⟩
    exact hx
  cases head with
  | none =>
    cases hl
    exact ⟨h.alone hx, hhead'⟩
  | some a =>
    obtain ⟨k, hk, heq⟩ := Option.map_eq_some_iff.mp hl
    cases heq
    exact ⟨h.insertBefore (hhead a rfl) hx hk, hhead'⟩

theorem Within.dequeue (h : Within P l) (hhead : ∀ y, head = some y → P y)
    (hl : dequeue head l x = some (head', l')) : Within P l' ∧ ∀ y, head' = some y → P y := by
  unfold Ring.dequeue at hl
  split at hl
  · cases hl
    exact ⟨h.update nofun nofun, nofun⟩
  · dsimp only at hl
    split at hl
    · cases hl
    · split at hl
      · cases hl
      · cases hl
        rename_i n _ _ _ _
        have hprev := h.setPrev (u := n) fun y hy => h x y (.inr hy)
        refine ⟨hprev.setNext fun y hy => hprev x y (.inl hy), fun y hy => ?_⟩
        split at hy
        · exact h x y (.inl hy)
        · exact hhead y hy

end Within

/-! ## Walks -/

/-- The nodes that a walk from `head` comes to, when under the condition `c` the node `x` is taken
out of its list on the way. -/
inductive Reaches (l : α → Link α) (head : Option α) (c : Prop) (x : α) : α → Prop
  | head {y : α} (h : head = some y) : Reaches l head c x y
  | next {y a : α} (h : Reaches l head c x y) (hn : (l y).next = some a) : Reaches l head c x a
  /-- The neighbours of `x` become neighbours. -/
  | gap {y a : α} (hc : c) (h : Reaches l head c x y) (hp : (l x).prev = some y)
    (hn : (l x).next = some a) : Reaches l head c x a

/-- A walk that is in `M` stays there. -/
structure Confined (M : α → Prop) (c : Prop) (x : α) (l : α → Link α) : Prop where
  next : ∀ y a, M y → (l y).next = some a → M a
  gap : c → ∀ y a, M y → (l x).prev = some y → (l x).next = some a → M a

section Walk

variable {M : α → Prop} {c : Prop}

omit [DecidableEq α] in
theorem Reaches.confined : Confined (Reaches l head c x) c x l :=
  ⟨fun _ _ h hn => h.next hn, fun hc _ _ h hp hn => h.gap hc hp hn⟩

omit [DecidableEq α] in
theorem Reaches.ne_none (h : Reaches l head c x y) : head ≠ none := by
  induction h with
  | head h =>
    rw [h]
    exact Option.some_ne_none _
  | next _ _ ih => exact ih
  | gap _ _ _ _ ih => exact ih

/-- A member of `M`, or `x` itself under the condition, is taken out of the list at `head`. -/
theorem Confined.dequeue (h : Confined M c x l) (hu : M u ∨ c ∧ u = x)
    (hl : dequeue head l u = some (head', l')) :
    Confined M c x l' ∧ ((∀ y, head = some y → M y) → ∀ y, head' = some y → M y) := by
  unfold Ring.dequeue at hl
  split at hl
  · cases hl
    refine ⟨⟨fun y a hy hn => ?_, fun hc y a hy hp hn => ?_⟩, nofun⟩
    · rcases eq_or_ne y u with rfl | hyu
      · simp at hn
      · exact h.next y a hy (by simpa [hyu] using hn)
    · rcases eq_or_ne x u with rfl | hxu
      · simp at hn
      · exact h.gap hc y a hy (by simpa [hxu] using hp) (by simpa [hxu] using hn)
  · rename_i hself
    dsimp only at hl
    split at hl
    · cases hl
    · rename_i n hn
      split at hl
      · cases hl
      · rename_i pr hpr
        cases hl
        have hnu : n ≠ u := by
          rintro rfl
          exact hself hn
        have hpr : (l u).prev = some pr := by
          rw [setPrev_prev] at hpr
          simpa using hpr
        -- The node behind `u` becomes the one behind the node in front of `u`.
        have hbehind : M pr → M n := by
          intro hm
          rcases hu with hu | ⟨hc, rfl⟩
          · exact h.next u n hu hn
          · exact h.gap hc pr n hm hpr hn
        have hnext : ∀ y a, M y → (setNext (setPrev l n (l u).prev) pr
            (setPrev l n (l u).prev u).next y).next = some a → M a := by
          intro y a hy ha
          rw [setNext_next] at ha
          split at ha
          · rename_i hyp
            rw [setPrev_next, hn] at ha
            cases ha
            exact hbehind (hyp ▸ hy)
          · rw [setPrev_next] at ha
            exact h.next y a hy ha
        refine ⟨⟨hnext, fun hc y a hy hp ha => ?_⟩, fun hhead y hy => ?_⟩
        · rw [setNext_prev, setPrev_prev] at hp
          split at hp
          · -- `x` is behind `u`, so it is a member itself.
            rename_i hxn
            have hmu : M u := by
              rcases hu with hu | ⟨-, hux⟩
              · exact hu
              · exact absurd (hux.trans hxn).symm hnu
            exact hnext x a (h.next u x hmu (hxn ▸ hn)) ha
          · rw [setNext_next] at ha
            split at ha
            · rename_i hxp
              rw [setPrev_next, hn] at ha
              cases ha
              rcases hu with hu | ⟨-, rfl⟩
              · exact h.next u n hu hn
              · exact h.gap hc y n hy hp hn
            · rw [setPrev_next] at ha
              exact h.gap hc y a hy hp ha
        · split at hy
          · rename_i hu'
            exact h.next u y (hhead u hu') hy
          · exact hhead y hy

end Walk

/-! ## Families of rings -/

variable {ι : Type} {heads : ι → Option α} {Q : ι → List α} {i j : ι}

/-- Disjoint circles over the same links, entered through `heads`. -/
structure Rings (l : α → Link α) (heads : ι → Option α) (Q : ι → List α) : Prop where
  ring (i : ι) : IsRing l (heads i) (Q i)
  disjoint {i j : ι} {x : α} : x ∈ Q i → x ∈ Q j → i = j

omit [DecidableEq α] in
/-- In circles, taking a member out does not lead a walk astray. -/
theorem Rings.reaches_iff {c : Prop} (h : Rings l heads Q) (hx : c → ∃ j, x ∈ Q j) :
    Reaches l (heads i) c x y ↔ y ∈ Q i := by
  constructor
  · intro hr
    induction hr with
    | head hy =>
      rw [(h.ring i).head_eq] at hy
      exact List.mem_of_mem_head? hy
    | next _ hn ih =>
      obtain ⟨n, hmem, hn'⟩ := (h.ring i).cyc.next_mem ih
      obtain rfl : n = _ := Option.some.inj (hn'.symm.trans hn)
      exact hmem
    | gap hc _ hp hn ih =>
      obtain ⟨j, hj⟩ := hx hc
      obtain ⟨m, hm, hp'⟩ := (h.ring j).cyc.prev_mem hj
      obtain ⟨n, hmem, hn'⟩ := (h.ring j).cyc.next_mem hj
      obtain rfl : m = _ := Option.some.inj (hp'.symm.trans hp)
      obtain rfl : n = _ := Option.some.inj (hn'.symm.trans hn)
      rwa [h.disjoint ih hm]
  · intro hy
    obtain ⟨a, ha, hr⟩ := (h.ring i).member_iff.mpr hy
    clear hy
    induction hr with
    | refl => exact .head ha
    | tail _ hn ih => exact ih.next hn

variable [DecidableEq ι]

omit [DecidableEq α] in
/-- Replace one circle of a family by another one that takes no node of the others. -/
theorem Rings.update (h : Rings l heads Q) (hr : IsRing l' head' L)
    (hl : ∀ y ∉ x :: Q i, l' y = l y) (hL : ∀ y ∈ L, y ∈ x :: Q i) (hx : ∀ j ≠ i, x ∉ Q j) :
    Rings l' (Function.update heads i head') (Function.update Q i L) := by
  have hframe : ∀ j ≠ i, ∀ y ∈ Q j, y ∉ x :: Q i := by
    intro j hj y hy hm
    rcases List.mem_cons.mp hm with rfl | hm
    · exact hx j hj hy
    · exact hj (h.disjoint hy hm)
  refine ⟨fun j => ?_, fun {j k y} hj hk => ?_⟩
  · rcases eq_or_ne j i with rfl | hj
    · simpa using hr
    · simp only [Function.update_of_ne hj]
      exact ⟨(h.ring j).head_eq, (h.ring j).cyc.congr fun y hy => hl y (hframe j hj y hy)⟩
  · rcases eq_or_ne j i with rfl | hji
    · rcases eq_or_ne k j with rfl | hkj
      · rfl
      · simp only [Function.update_self, Function.update_of_ne hkj] at hj hk
        exact (hframe k hkj y hk (hL y hj)).elim
    · rcases eq_or_ne k i with rfl | hki
      · simp only [Function.update_self, Function.update_of_ne hji] at hj hk
        exact (hframe j hji y hj (hL y hk)).elim
      · simp only [Function.update_of_ne hji, Function.update_of_ne hki] at hj hk
        exact h.disjoint hj hk

theorem Rings.enqueueTail (h : Rings l heads Q) (hx : ∀ j, x ∉ Q j) (i : ι) :
    ∃ head' l', enqueueTail (heads i) l x = some (head', l') ∧
      Rings l' (Function.update heads i head') (Function.update Q i (Q i ++ [x])) := by
  obtain ⟨head', l', he, hr, hl⟩ := (h.ring i).enqueueTail (hx i)
  refine ⟨head', l', he, h.update hr hl (fun y hy => ?_) fun j _ => hx j⟩
  simpa [or_comm] using hy

theorem Rings.enqueueHead (h : Rings l heads Q) (hx : ∀ j, x ∉ Q j) (i : ι) :
    ∃ head' l', enqueueHead (heads i) l x = some (head', l') ∧
      Rings l' (Function.update heads i head') (Function.update Q i (x :: Q i)) := by
  obtain ⟨head', l', he, hr, hl⟩ := (h.ring i).enqueueHead (hx i)
  exact ⟨head', l', he, h.update hr hl (fun y hy => hy) fun j _ => hx j⟩

theorem Rings.dequeue (h : Rings l heads Q) (hx : x ∈ Q i) :
    ∃ head' l', dequeue (heads i) l x = some (head', l') ∧
      Rings l' (Function.update heads i head') (Function.update Q i ((Q i).erase x)) := by
  obtain ⟨head', l', he, hr, hl⟩ := (h.ring i).dequeue hx
  refine ⟨head', l', he, h.update (x := x) hr (fun y hy => hl y ?_) (fun y hy => ?_) ?_⟩
  · exact fun hm => hy (List.mem_cons_of_mem _ hm)
  · exact List.mem_cons_of_mem _ (List.mem_of_mem_erase hy)
  · exact fun j hj hm => hj (h.disjoint hm hx)

omit [DecidableEq α] in
theorem Rings.setHead (h : Rings l heads Q) (hx : x ∈ Q i) :
    ∃ L, L.Perm (Q i) ∧ Rings l (Function.update heads i (some x)) (Function.update Q i L) := by
  obtain ⟨L, hL, hr⟩ := (h.ring i).setHead hx
  refine ⟨L, hL, h.update (x := x) hr (fun _ _ => rfl) (fun y hy => ?_) ?_⟩
  · exact List.mem_cons_of_mem _ (hL.mem_iff.mp hy)
  · exact fun j hj hm => hj (h.disjoint hm hx)

end Ring
