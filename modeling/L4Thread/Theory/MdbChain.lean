import L4Thread.Kernel.Flush
import Mathlib.Data.List.Nodup

/-!
# Chains of nodes

The nodes of one page size below a root node follow each other through their links, and each finds
the one before it through its backlink, which hides the page table entry of the node. `remove_map`
takes a node out, `mdb_map` puts one in or gives it another entry.
-/

namespace L4Thread

/-! ## Chains of nodes -/

/-- A node is the next one of a place. -/
structure Mdb.Follows (m : Mdb) (pg : Word → Word) (q : MdbPlace) (p : Word) : Prop where
  next : m.next q = .map p
  ne_zero : p ≠ 0
  isPrevRoot : (m.node p).isPrevRoot = q.isRoot
  prev : (m.node p).prev = q.ptr ^^^ pg p

/-- The nodes from a place up to another, each with its page table entry. -/
def Mdb.Segment (m : Mdb) (pg : Word → Word) : MdbPlace → List Word → MdbPlace → Prop
  | q, [], e => q = e
  | q, p :: L, e => m.Follows pg q p ∧ m.Segment pg (.node p) L e

/-- The nodes that come after a place. -/
def Mdb.Linked (m : Mdb) (pg : Word → Word) : MdbPlace → List Word → Prop
  | q, [] => m.next q = .map 0
  | q, p :: L => m.Follows pg q p ∧ m.Linked pg (.node p) L

/-- The nodes below a root node. -/
structure Mdb.Holds (m : Mdb) (pg : Word → Word) (root : Word) (L : List Word) : Prop where
  linked : m.Linked pg (.root root) L
  nodup : L.Nodup
  pages : (L.map pg).Nodup
  used : ∀ p ∈ L, m.used p = true

namespace Mdb

variable {m m' : Mdb} {pg pg' : Word → Word} {q e : MdbPlace} {p x n a root : Word}
  {l : NextLink} {A B L : List Word}

/-! ### Updates -/

@[simp] theorem next_node : m.next (.node p) = (m.node p).next := rfl

@[simp] theorem getMap_map : m.getMap (.map p) = p := rfl

@[simp] theorem getRoot_map : m.getRoot (.map p) = 0 := rfl

theorem next_setNext_self : (m.setNext q l).next q = l := by
  cases q with
  | node p =>
    exact congrArg MapNode.next (Function.update_self p { m.node p with next := l } m.node)
  | root r => exact Function.update_self ..

theorem next_setNext_of_ne (h : e ≠ q) : (m.setNext q l).next e = m.next e := by
  cases q with
  | node p =>
    cases e with
    | node p' =>
      have hne : p' ≠ p := fun heq => h (congrArg MdbPlace.node heq)
      exact congrArg MapNode.next (Function.update_of_ne hne ..)
    | root r' => rfl
  | root r =>
    cases e with
    | node p' => rfl
    | root r' =>
      have hne : r' ≠ r := fun heq => h (congrArg MdbPlace.root heq)
      exact Function.update_of_ne hne ..

/-- A new link of a node leaves the rest of the node. -/
theorem node_setNext : ∃ l', (m.setNext q l).node p = { m.node p with next := l' } := by
  cases q with
  | node p' =>
    by_cases h : p = p'
    · subst h
      exact ⟨l, Function.update_self ..⟩
    · exact ⟨(m.node p).next, Function.update_of_ne h ..⟩
  | root r => exact ⟨(m.node p).next, rfl⟩

theorem node_setNext_of_ne (h : q ≠ .node p) : (m.setNext q l).node p = m.node p := by
  cases q with
  | node p' =>
    have hne : p ≠ p' := fun heq => h (congrArg MdbPlace.node heq.symm)
    exact Function.update_of_ne hne ..
  | root r => rfl

theorem used_setNext : (m.setNext q l).used = m.used := by
  cases q <;> rfl

theorem dual_setNext : (m.setNext q l).dual = m.dual := by
  cases q <;> rfl

/-! ### Segments -/

theorem linked_append : m.Linked pg q (A ++ B) ↔ ∃ e, m.Segment pg q A e ∧ m.Linked pg e B := by
  induction A generalizing q with
  | nil => exact ⟨fun h => ⟨q, rfl, h⟩, fun h => by obtain ⟨e, rfl, h⟩ := h; exact h⟩
  | cons p A ih =>
    constructor
    · rintro ⟨hfollows, hrest⟩
      obtain ⟨e, hsegment, hlinked⟩ := ih.1 hrest
      exact ⟨e, ⟨hfollows, hsegment⟩, hlinked⟩
    · rintro ⟨e, ⟨hfollows, hsegment⟩, hlinked⟩
      exact ⟨hfollows, ih.2 ⟨e, hsegment, hlinked⟩⟩

/-- A segment ends where it starts, or with its last node. -/
theorem Segment.end_eq (h : m.Segment pg q A e) : e = q ∨ ∃ p ∈ A, p ≠ 0 ∧ e = .node p := by
  induction A generalizing q with
  | nil => exact .inl (Eq.symm h)
  | cons p A ih =>
    obtain ⟨hfollows, hrest⟩ := h
    rcases ih hrest with rfl | ⟨p', hp', hne, rfl⟩
    · exact .inr ⟨p, List.mem_cons_self .., hfollows.ne_zero, rfl⟩
    · exact .inr ⟨p', List.mem_cons_of_mem _ hp', hne, rfl⟩

/-- A segment below a root node ends with a node of its own, or at the root node. -/
theorem Segment.ne_node (h : m.Segment pg (.root root) A q) (hp : p ∉ A) : q ≠ .node p := by
  rintro rfl
  rcases h.end_eq with heq | ⟨p', hp', -, heq⟩
  · cases heq
  · cases heq
    exact hp hp'

theorem Segment.ne_root (h : m.Segment pg (.root root) A q) (ha : a ≠ root) : q ≠ .root a := by
  rintro rfl
  rcases h.end_eq with heq | ⟨p, -, -, heq⟩
  · cases heq
    exact ha rfl
  · cases heq

theorem Segment.ptr_ne_zero (h : m.Segment pg (.root root) A q) (hroot : root ≠ 0) :
    q.ptr ≠ 0 := by
  rcases h.end_eq with rfl | ⟨p, -, hne, rfl⟩
  · exact hroot
  · exact hne

/-- The first node of a list. -/
theorem ne_headD_of_notMem (hp : p ∉ B) : p ≠ B.headD 0 ∨ B.headD 0 = 0 := by
  cases B with
  | nil => exact .inr rfl
  | cons n B => exact .inl (List.ne_of_not_mem_cons hp)

theorem Segment.concat (h : m.Segment pg q A e) (hp : m.Follows pg e p) :
    m.Segment pg q (A ++ [p]) (.node p) := by
  induction A generalizing q with
  | nil =>
    obtain rfl : q = e := h
    exact ⟨hp, rfl⟩
  | cons p' A ih => exact ⟨h.1, ih h.2⟩

theorem Follows.congr (h : m.Follows pg q p) (hnext : m'.next q = m.next q)
    (hroot : (m'.node p).isPrevRoot = (m.node p).isPrevRoot)
    (hprev : (m'.node p).prev = (m.node p).prev) (hpg : pg' p = pg p) : m'.Follows pg' q p where
  next := hnext.trans h.next
  ne_zero := h.ne_zero
  isPrevRoot := hroot.trans h.isPrevRoot
  prev := by rw [hprev, h.prev, hpg]

/-- A segment does not depend on the link of its end. -/
theorem Segment.congr (h : m.Segment pg q A e) (hnodup : A.Nodup) (hq : ∀ p ∈ A, q ≠ .node p)
    (hnext : q ≠ e → m'.next q = m.next q)
    (hnode : ∀ p ∈ A, .node p ≠ e → m'.next (.node p) = m.next (.node p))
    (hroot : ∀ p ∈ A, (m'.node p).isPrevRoot = (m.node p).isPrevRoot)
    (hprev : ∀ p ∈ A, (m'.node p).prev = (m.node p).prev) (hpg : ∀ p ∈ A, pg' p = pg p) :
    m'.Segment pg' q A e := by
  induction A generalizing q with
  | nil => exact h
  | cons p A ih =>
    obtain ⟨hfollows, hrest⟩ := h
    have hne : q ≠ e := by
      rintro rfl
      rcases hrest.end_eq with heq | ⟨p', hp', -, heq⟩
      · exact hq p (List.mem_cons_self ..) heq
      · exact hq p' (List.mem_cons_of_mem _ hp') heq
    have hp := List.mem_cons_self (a := p) (l := A)
    refine ⟨hfollows.congr (hnext hne) (hroot p hp) (hprev p hp) (hpg p hp), ?_⟩
    obtain ⟨hnotin, hnodup⟩ := List.nodup_cons.1 hnodup
    refine ih hrest hnodup (fun p' hp' heq => ?_) (hnode p hp)
      (fun p' hp' => hnode p' (.tail _ hp'))
      (fun p' hp' => hroot p' (.tail _ hp')) (fun p' hp' => hprev p' (.tail _ hp'))
      fun p' hp' => hpg p' (.tail _ hp')
    cases heq
    exact hnotin hp'

theorem Linked.congr (h : m.Linked pg q L) (hq : m'.next q = m.next q)
    (hnode : ∀ p ∈ L, m'.node p = m.node p) (hpg : ∀ p ∈ L, pg' p = pg p) :
    m'.Linked pg' q L := by
  induction L generalizing q with
  | nil => exact hq.trans h
  | cons p L ih =>
    obtain ⟨hfollows, hrest⟩ := h
    have hp := hnode p (List.mem_cons_self ..)
    refine ⟨hfollows.congr hq (congrArg _ hp) (congrArg _ hp) (hpg p (List.mem_cons_self ..)), ?_⟩
    exact ih hrest (congrArg MapNode.next hp) (fun p' hp' => hnode p' (.tail _ hp'))
      fun p' hp' => hpg p' (.tail _ hp')

theorem Linked.next_eq (h : m.Linked pg q L) : m.next q = .map (L.headD 0) := by
  cases L with
  | nil => exact h
  | cons p L => exact h.1.next

theorem Follows.prevPlace_eq (h : m.Follows pg q p) : m.prevPlace p (pg p) = q := by
  rw [prevPlace, h.prev, BitVec.xor_assoc, BitVec.xor_self, BitVec.xor_zero, h.isPrevRoot]
  cases q <;> rfl

theorem Follows.getPgent_eq (h : m.Follows pg q p) : m.getPgent p q.ptr = pg p := by
  rw [getPgent, h.prev, BitVec.xor_comm, ← BitVec.xor_assoc, BitVec.xor_self, BitVec.zero_xor]

/-! ### Removal of a node -/

theorem node_setBacklink_self {isRoot : Bool} {prev g : Word} :
    (m.setBacklink n isRoot prev g).node n =
      { m.node n with isPrevRoot := isRoot, prev := prev ^^^ g } :=
  Function.update_self ..

theorem node_setBacklink_of_ne {isRoot : Bool} {prev g : Word} (h : p ≠ n) :
    (m.setBacklink n isRoot prev g).node p = m.node p :=
  Function.update_of_ne h ..

theorem next_setBacklink {isRoot : Bool} {prev g : Word} :
    (m.setBacklink n isRoot prev g).next e = m.next e := by
  cases e with
  | node p =>
    rw [next_node, next_node]
    by_cases h : p = n
    · subst h
      rw [node_setBacklink_self]
    · rw [node_setBacklink_of_ne h]
  | root r => rfl

/-- The database without the node `x`, where `n` is the next one. -/
def unlink (m : Mdb) (q : MdbPlace) (x n g : Word) : Mdb :=
  let m := { m.setNext q (.map n) with used := Function.update m.used x false }
  if n = 0 then m else m.setBacklink n q.isRoot q.ptr g

theorem next_unlink_self {g : Word} : (m.unlink q x n g).next q = .map n := by
  rw [unlink]
  split
  · exact next_setNext_self
  · rw [next_setBacklink]
    exact next_setNext_self

theorem next_unlink_of_ne {g : Word} (h : e ≠ q) : (m.unlink q x n g).next e = m.next e := by
  rw [unlink]
  split
  · exact next_setNext_of_ne h
  · rw [next_setBacklink]
    exact next_setNext_of_ne h

/-- The backlink of the next node is the only one that is not kept. -/
theorem node_unlink {g : Word} (h : p ≠ n ∨ n = 0) :
    ∃ l, (m.unlink q x n g).node p = { m.node p with next := l } := by
  rw [unlink]
  split
  · exact node_setNext
  · rename_i hn
    rw [node_setBacklink_of_ne (h.resolve_right hn)]
    exact node_setNext

theorem node_unlink_next {g : Word} (hn : n ≠ 0) : ∃ l, (m.unlink q x n g).node n =
    { m.node n with isPrevRoot := q.isRoot, prev := q.ptr ^^^ g, next := l } := by
  obtain ⟨l, hl⟩ := node_setNext (m := m) (q := q) (l := .map n) (p := n)
  refine ⟨l, ?_⟩
  rw [unlink, if_neg hn, node_setBacklink_self]
  exact congrArg (fun e : MapNode => { e with isPrevRoot := q.isRoot, prev := q.ptr ^^^ g }) hl

theorem node_unlink_of_ne {g : Word} (hn : p ≠ n ∨ n = 0) (hq : q ≠ .node p) :
    (m.unlink q x n g).node p = m.node p := by
  rw [unlink]
  split
  · exact node_setNext_of_ne hq
  · rename_i h
    rw [node_setBacklink_of_ne (hn.resolve_right h)]
    exact node_setNext_of_ne hq

theorem used_unlink {g : Word} : (m.unlink q x n g).used = Function.update m.used x false := by
  rw [unlink]
  split <;> rfl

theorem dual_unlink {g : Word} : (m.unlink q x n g).dual = m.dual := by
  rw [unlink]
  split <;> exact dual_setNext

theorem root_unlink_of_ne {g : Word} (h : q ≠ .root a) : (m.unlink q x n g).root a = m.root a :=
  next_unlink_of_ne (e := .root a) h.symm

/-- `remove_map`. -/
theorem removeMap_eq (h : m.Follows pg q x) (hx : m.Linked pg (.node x) B) (hptr : q.ptr ≠ 0)
    (hused : m.used x = true) :
    m.removeMap q x = some (m.unlink q x (B.headD 0) (pg (B.headD 0))) := by
  have hnmap : m.getMap (m.node x).next = B.headD 0 := by
    rw [← next_node, hx.next_eq, getMap_map]
  have hfree : (m.setNext q (.map (B.headD 0))).freeBuffer x =
      some { m.setNext q (.map (B.headD 0)) with used := Function.update m.used x false } := by
    rw [freeBuffer, used_setNext, if_pos hused]
  rw [removeMap, hnmap, h.next]
  simp only [hptr, ↓reduceIte, NextLink.map, Bool.not_false, Bool.and_self, Option.pure_def,
    Option.bind_eq_bind, Option.bind_some]
  rw [← NextLink.map, hfree, Option.bind_some, unlink]
  cases B with
  | nil => rfl
  | cons n B =>
    have hn := hx.1.ne_zero
    obtain ⟨l, hl⟩ := node_setNext (m := m) (q := q) (l := .map n) (p := n)
    have hpg : ((m.setNext q (.map n)).node n).prev ^^^ x = pg n := by
      rw [hl]
      exact hx.1.getPgent_eq
    rw [List.headD_cons, if_neg hn, if_neg hn, getPgent, hpg]

theorem Linked.unlink (hx : m.Linked pg (.node x) B) (hnodup : B.Nodup)
    (hq : ∀ p ∈ B, q ≠ .node p) :
    (m.unlink q x (B.headD 0) (pg (B.headD 0))).Linked pg q B := by
  cases B with
  | nil => exact next_unlink_self
  | cons n B =>
    obtain ⟨hfollows, hrest⟩ := hx
    obtain ⟨hnotin, -⟩ := List.nodup_cons.1 hnodup
    rw [List.headD_cons]
    obtain ⟨l, hl⟩ := node_unlink_next (m := m) (q := q) (x := x) (g := pg n) hfollows.ne_zero
    have hne : MdbPlace.node n ≠ q := (hq n (List.mem_cons_self ..)).symm
    refine ⟨⟨next_unlink_self, hfollows.ne_zero, by rw [hl], by rw [hl]⟩, ?_⟩
    refine hrest.congr (next_unlink_of_ne hne) (fun p hp => ?_) fun _ _ => rfl
    refine node_unlink_of_ne (.inl ?_) (hq p (List.mem_cons_of_mem _ hp))
    rintro rfl
    exact hnotin hp

/-- Some nodes below a root node are freed, and what is not below it stays. -/
structure Detached (root : Word) (L R : List Word) (m m' : Mdb) : Prop where
  used : ∀ a, m'.used a = true ↔ m.used a = true ∧ a ∉ R
  depth : ∀ p, (m'.node p).depth = (m.node p).depth
  node : ∀ p ∉ L, m'.node p = m.node p
  root : ∀ a, a ≠ root → m'.root a = m.root a
  dual : m'.dual = m.dual

theorem Detached.refl : Detached root L [] m m where
  used _ := by simp
  depth _ := rfl
  node _ _ := rfl
  root _ _ := rfl
  dual := rfl

theorem Detached.trans {m'' : Mdb} {L' R R' : List Word} (h : Detached root L R m m')
    (h' : Detached root L' R' m' m'') (hL : ∀ p ∈ L', p ∈ L) :
    Detached root L (R ++ R') m m'' where
  used a := by rw [h'.used, h.used, List.mem_append, not_or, and_assoc]
  depth p := (h'.depth p).trans (h.depth p)
  node p hp := (h'.node p fun hmem => hp (hL p hmem)).trans (h.node p hp)
  root a ha := (h'.root a ha).trans (h.root a ha)
  dual := h'.dual.trans h.dual

theorem Segment.unlink {g : Word} (h : m.Segment pg (.root root) A q) (hA : A.Nodup)
    (hn : ∀ p ∈ A, p ≠ n ∨ n = 0) : (m.unlink q x n g).Segment pg (.root root) A q := by
  have hnode : ∀ p ∈ A, ∃ l, (m.unlink q x n g).node p = { m.node p with next := l } :=
    fun p hp => node_unlink (hn p hp)
  refine h.congr hA (by rintro p - ⟨⟩) next_unlink_of_ne (fun p _ => next_unlink_of_ne)
    (fun p hp => ?_) (fun p hp => ?_) fun _ _ => rfl
  · obtain ⟨l, hl⟩ := hnode p hp
    rw [hl]
  · obtain ⟨l, hl⟩ := hnode p hp
    rw [hl]

theorem depth_unlink {g : Word} : ((m.unlink q x n g).node p).depth = (m.node p).depth := by
  by_cases hp : p ≠ n ∨ n = 0
  · obtain ⟨l, hl⟩ := node_unlink (m := m) (q := q) (x := x) (g := g) hp
    rw [hl]
  · obtain ⟨hp, hn⟩ := not_or.1 hp
    obtain ⟨l, hl⟩ := node_unlink_next (m := m) (q := q) (x := x) (g := g) hn
    rw [Decidable.not_not.1 hp, hl]

theorem Segment.detached {g : Word} (h : m.Segment pg (.root root) A q) :
    Detached root (A ++ x :: B) [x] m (m.unlink q x (B.headD 0) g) where
  used a := by
    rw [used_unlink, List.mem_singleton]
    by_cases ha : a = x
    · subst ha
      simp
    · rw [Function.update_of_ne ha]
      simp [ha]
  depth _ := depth_unlink
  node p hp := by
    rw [List.mem_append, List.mem_cons, not_or, not_or] at hp
    exact node_unlink_of_ne (ne_headD_of_notMem hp.2.2) (h.ne_node hp.1)
  root _ ha := root_unlink_of_ne (h.ne_root ha)
  dual := dual_unlink

/-- A node between others is removed. -/
theorem Holds.remove (h : m.Holds pg root (A ++ x :: B)) (hroot : root ≠ 0) :
    ∃ m', m.removeMap (m.prevPlace x (pg x)) x = some m' ∧ m'.Holds pg root (A ++ B) ∧
      Detached root (A ++ x :: B) [x] m m' ∧
      ∀ n ∈ B.head?, m'.getPgent n (m.prevPlace x (pg x)).ptr = pg n := by
  obtain ⟨q, hsegment, hfollows, hrest⟩ := linked_append.1 h.linked
  obtain ⟨hx, hAB⟩ := List.nodup_cons.1 (List.nodup_middle.1 h.nodup)
  obtain ⟨hA, hB, hdisj⟩ := List.nodup_append'.1 hAB
  have hlinked := hrest.unlink hB fun p hp => hsegment.ne_node fun hpA => hdisj hpA hp
  rw [hfollows.prevPlace_eq]
  refine ⟨_, removeMap_eq hfollows hrest (hsegment.ptr_ne_zero hroot) (h.used x (by simp)),
    ⟨linked_append.2 ⟨q, ?_, hlinked⟩, hAB, ?_, fun p hp => ?_⟩, hsegment.detached, fun n hn => ?_⟩
  · exact hsegment.unlink hA fun p hp => ne_headD_of_notMem fun hpB => hdisj hp hpB
  · have hpages := h.pages
    rw [List.map_append, List.map_cons, List.nodup_middle] at hpages
    rw [List.map_append]
    exact (List.nodup_cons.1 hpages).2
  · have hne : p ≠ x := by
      rintro rfl
      exact hx hp
    rw [used_unlink, Function.update_of_ne hne]
    exact h.used p (List.perm_middle.mem_iff.2 (List.mem_cons_of_mem _ hp))
  · cases B with
    | nil => cases hn
    | cons n B =>
      cases hn
      exact hlinked.1.getPgent_eq

theorem Holds.getPgent_next (h : m.Holds pg root (A ++ x :: B)) (hn : n ∈ B.head?) :
    m.getPgent n x = pg n := by
  obtain ⟨q, -, -, hrest⟩ := linked_append.1 h.linked
  cases B with
  | nil => cases hn
  | cons n B =>
    cases hn
    exact hrest.1.getPgent_eq

theorem Linked.ne_zero (h : m.Linked pg q L) (hp : p ∈ L) : p ≠ 0 := by
  induction L generalizing q with
  | nil => cases hp
  | cons n L ih =>
    rcases List.mem_cons.1 hp with rfl | hp
    · exact h.1.ne_zero
    · exact ih h.2 hp

theorem Holds.page_notMem (h : m.Holds pg root (A ++ x :: B)) : pg x ∉ B.map pg := by
  have hpages := h.pages
  rw [List.map_append, List.map_cons, List.nodup_middle] at hpages
  exact fun hx => (List.nodup_cons.1 hpages).1 (List.mem_append_right _ hx)

theorem Holds.next_eq (h : m.Holds pg root (A ++ x :: B)) : (m.node x).next = .map (B.headD 0) := by
  obtain ⟨q, -, -, hrest⟩ := linked_append.1 h.linked
  exact hrest.next_eq

end Mdb

/-! ## Insertion of a node -/

namespace Mdb

variable {m : Mdb} {b : MdbBuffers} {pg : Word → Word} {q f : MdbPlace}
  {p x new n g root tPg : Word}
  {e : MapNode} {A B : List Word}

/-- The database with a new node behind a place, where `n` was the next one. -/
def hooked (m : Mdb) (q : MdbPlace) (new : Word) (e : MapNode) (n g : Word) : Mdb :=
  let m := (m.setNode new e).setNext q (.map new)
  if n = 0 then m else m.setBacklink n false new g

theorem next_setNode_of_ne (h : f ≠ .node new) : (m.setNode new e).next f = m.next f := by
  cases f with
  | node p =>
    have hne : p ≠ new := fun heq => h (congrArg MdbPlace.node heq)
    exact congrArg MapNode.next (Function.update_of_ne hne ..)
  | root r => rfl

theorem next_hooked_self : (m.hooked q new e n g).next q = .map new := by
  rw [hooked]
  split
  · exact next_setNext_self
  · rw [next_setBacklink]
    exact next_setNext_self

theorem next_hooked_of_ne (hq : f ≠ q) (hnew : f ≠ .node new) :
    (m.hooked q new e n g).next f = m.next f := by
  rw [hooked]
  split
  · rw [next_setNext_of_ne hq, next_setNode_of_ne hnew]
  · rw [next_setBacklink, next_setNext_of_ne hq, next_setNode_of_ne hnew]

theorem node_hooked_new (hq : q ≠ .node new) (hn : new ≠ n) :
    (m.hooked q new e n g).node new = e := by
  rw [hooked]
  split
  · rw [node_setNext_of_ne hq]
    exact Function.update_self ..
  · rw [node_setBacklink_of_ne hn, node_setNext_of_ne hq]
    exact Function.update_self ..

/-- The backlink of the next node is the only one of the old ones that is not kept. -/
theorem node_hooked (hnew : p ≠ new) (hn : p ≠ n ∨ n = 0) :
    ∃ l, (m.hooked q new e n g).node p = { m.node p with next := l } := by
  obtain ⟨l, hl⟩ := node_setNext (m := m.setNode new e) (q := q) (l := .map new) (p := p)
  have hsame : (m.setNode new e).node p = m.node p := Function.update_of_ne hnew ..
  rw [hsame] at hl
  refine ⟨l, ?_⟩
  rw [hooked]
  split
  · exact hl
  · rename_i h
    rw [node_setBacklink_of_ne (hn.resolve_right h), hl]

theorem node_hooked_next (hnew : n ≠ new) (hn : n ≠ 0) : ∃ l, (m.hooked q new e n g).node n =
    { m.node n with isPrevRoot := false, prev := new ^^^ g, next := l } := by
  obtain ⟨l, hl⟩ := node_setNext (m := m.setNode new e) (q := q) (l := .map new) (p := n)
  have hsame : (m.setNode new e).node n = m.node n := Function.update_of_ne hnew ..
  rw [hsame] at hl
  refine ⟨l, ?_⟩
  rw [hooked, if_neg hn, node_setBacklink_self, hl]

theorem node_hooked_of_ne (hnew : p ≠ new) (hn : p ≠ n ∨ n = 0) (hq : q ≠ .node p) :
    (m.hooked q new e n g).node p = m.node p := by
  have hsame : (m.setNode new e).node p = m.node p := Function.update_of_ne hnew ..
  rw [hooked]
  split
  · rw [node_setNext_of_ne hq, hsame]
  · rename_i h
    rw [node_setBacklink_of_ne (hn.resolve_right h), node_setNext_of_ne hq, hsame]

theorem used_hooked : (m.hooked q new e n g).used = m.used := by
  rw [hooked]
  split <;> exact used_setNext

/-- The depth of the nodes that were there. -/
theorem depth_hooked (hnew : p ≠ new) :
    ((m.hooked q new e n g).node p).depth = (m.node p).depth := by
  by_cases hp : p ≠ n ∨ n = 0
  · obtain ⟨l, hl⟩ := node_hooked (m := m) (q := q) (e := e) (g := g) hnew hp
    rw [hl]
  · obtain ⟨hp, hn⟩ := not_or.1 hp
    rw [Decidable.not_not] at hp
    subst hp
    obtain ⟨l, hl⟩ := node_hooked_next (m := m) (q := q) (e := e) (g := g) hnew hn
    rw [hl]

/-- A new mapping is hooked below a place. -/
theorem hook_eq {tSpace : Word} {depth : BitVec 8} (h : m.Linked pg q B) (hq : q ≠ .node new)
    (hB : new ∉ B) : b.hook new tPg tSpace depth q m = some (m.hooked q new
      ⟨q.isRoot, q.ptr ^^^ tPg, depth, tSpace, .map (B.headD 0)⟩ (B.headD 0)
      (pg (B.headD 0))) := by
  have hnext : ∀ e, (m.setNode new e).next q = .map (B.headD 0) := by
    intro e
    rw [next_setNode_of_ne hq, h.next_eq]
  rw [MdbBuffers.hook, h.next_eq, getMap_map, MdbBuffers.setNextMap, hnext]
  cases B with
  | nil => rfl
  | cons n B =>
    have hn := h.1.ne_zero
    have hnew : n ≠ new := by
      rintro rfl
      exact hB (List.mem_cons_self ..)
    have hpg : ∀ e, ((m.setNode new e).setNext q (.map new)).getPgent n q.ptr = pg n := by
      intro e
      obtain ⟨l, hl⟩ := node_setNext (m := m.setNode new e) (q := q) (l := .map new) (p := n)
      have hsame : (m.setNode new e).node n = m.node n := Function.update_of_ne hnew ..
      rw [getPgent, hl, hsame]
      exact h.1.getPgent_eq
    rw [List.headD_cons, hooked, if_neg hn,
      ← hpg ⟨q.isRoot, q.ptr ^^^ tPg, depth, tSpace, .map n⟩]
    exact congrArg some (if_neg hn)

theorem Segment.linked (h : m.Segment pg q A f) (hall : m.Linked pg q (A ++ B)) :
    m.Linked pg f B := by
  induction A generalizing q with
  | nil =>
    obtain rfl : q = f := h
    exact hall
  | cons p A ih => exact ih h.2 hall.2

/-- What comes after the new node. -/
theorem Linked.hooked {pg' : Word → Word} (h : m.Linked pg q B) (hB : B.Nodup) (hnew : new ∉ B)
    (hne : new ≠ 0) (hq : ∀ p ∈ new :: B, q ≠ .node p) (he : e.next = .map (B.headD 0))
    (hpg : ∀ p ∈ B, pg' p = pg p) :
    (m.hooked q new e (B.headD 0) (pg (B.headD 0))).Linked pg' (.node new) B := by
  have hnext : (m.hooked q new e (B.headD 0) (pg (B.headD 0))).next (.node new) =
      .map (B.headD 0) := by
    rw [next_node, node_hooked_new (hq new (List.mem_cons_self ..)), he]
    cases B with
    | nil => exact hne
    | cons n B => exact (List.ne_of_not_mem_cons hnew)
  cases B with
  | nil => exact hnext
  | cons n B =>
    obtain ⟨hfollows, hrest⟩ := h
    obtain ⟨hn, -⟩ := List.nodup_cons.1 hB
    have hnew' : n ≠ new := (List.ne_of_not_mem_cons hnew).symm
    obtain ⟨l, hl⟩ := node_hooked_next (m := m) (q := q) (e := e) (g := pg n) hnew'
      hfollows.ne_zero
    refine ⟨⟨hnext, hfollows.ne_zero, ?_, ?_⟩, ?_⟩
    · rw [List.headD_cons, hl]
      rfl
    · rw [List.headD_cons, hl, hpg n (List.mem_cons_self ..)]
      rfl
    · refine hrest.congr (next_hooked_of_ne (hq n (by simp)).symm ?_) (fun p hp => ?_)
        fun p hp => hpg p (List.mem_cons_of_mem _ hp)
      · rintro ⟨⟩
        exact hnew' rfl
      · refine node_hooked_of_ne ?_ (.inl ?_) (hq p (by simp [hp]))
        · rintro rfl
          exact hnew (List.mem_cons_of_mem _ hp)
        · rintro rfl
          exact hn hp

theorem Segment.hooked {pg' : Word → Word} (h : m.Segment pg (.root root) A q) (hA : A.Nodup)
    (hnew : new ∉ A) (hn : ∀ p ∈ A, p ≠ n ∨ n = 0) (hpg : ∀ p ∈ A, pg' p = pg p) :
    (m.hooked q new e n g).Segment pg' (.root root) A q := by
  have hne : ∀ p ∈ A, p ≠ new := by
    rintro p hp rfl
    exact hnew hp
  have hnode : ∀ p ∈ A, ∃ l, (m.hooked q new e n g).node p = { m.node p with next := l } :=
    fun p hp => node_hooked (hne p hp) (hn p hp)
  refine h.congr hA (by rintro p - ⟨⟩) (fun hend => next_hooked_of_ne hend ?_)
    (fun p hp hend => next_hooked_of_ne hend ?_) (fun p hp => ?_) (fun p hp => ?_) hpg
  · rintro ⟨⟩
  · rintro ⟨⟩
    exact hnew hp
  · obtain ⟨l, hl⟩ := hnode p hp
    rw [hl]
  · obtain ⟨l, hl⟩ := hnode p hp
    rw [hl]

/-- A new node gets its place between the others. -/
theorem Holds.hook (tSpace : Word) (depth : BitVec 8) (h : m.Holds pg root (A ++ B))
    (hsegment : m.Segment pg (.root root) A q) (hne : new ≠ 0) (hnew : new ∉ A ++ B)
    (hused : m.used new = true) (hpage : tPg ∉ (A ++ B).map pg) :
    ∃ m', b.hook new tPg tSpace depth q m = some m' ∧
      m'.Holds (Function.update pg new tPg) root (A ++ new :: B) ∧
      (m'.node new).depth = depth ∧ ∀ p, p ≠ new → (m'.node p).depth = (m.node p).depth := by
  have hrest := hsegment.linked h.linked
  obtain ⟨hA, hB, hdisj⟩ := List.nodup_append'.1 h.nodup
  obtain ⟨hnewA, hnewB⟩ := not_or.1 (mt List.mem_append.2 hnew)
  have hq : ∀ p ∈ new :: B, q ≠ .node p := by
    intro p hp
    rcases List.mem_cons.1 hp with rfl | hp
    · exact hsegment.ne_node hnewA
    · exact hsegment.ne_node fun hpA => hdisj hpA hp
  have hold : ∀ p ∈ A ++ B, Function.update pg new tPg p = pg p := by
    intro p hp
    refine Function.update_of_ne ?_ ..
    rintro rfl
    exact hnew hp
  have hn : new ≠ B.headD 0 := by
    cases B with
    | nil => exact hne
    | cons n B => exact List.ne_of_not_mem_cons hnewB
  have hnode := node_hooked_new (m := m) (q := q) (g := pg (B.headD 0))
    (e := ⟨q.isRoot, q.ptr ^^^ tPg, depth, tSpace, .map (B.headD 0)⟩)
    (hsegment.ne_node hnewA) hn
  refine ⟨_, hook_eq hrest (hsegment.ne_node hnewA) hnewB, ⟨linked_append.2 ⟨q, ?_,
    ⟨next_hooked_self, hne, ?_, ?_⟩, ?_⟩, ?_, ?_, ?_⟩, ?_, fun p hp => depth_hooked hp⟩
  · exact hsegment.hooked hA hnewA (fun p hp => ne_headD_of_notMem fun hpB => hdisj hp hpB)
      fun p hp => hold p (List.mem_append_left _ hp)
  · rw [hnode]
  · rw [hnode, Function.update_self]
  · exact hrest.hooked hB hnewB hne hq rfl fun p hp => hold p (List.mem_append_right _ hp)
  · rw [List.nodup_middle]
    exact List.nodup_cons.2 ⟨hnew, h.nodup⟩
  · rw [List.map_append, List.map_cons, List.nodup_middle, ← List.map_append,
      Function.update_self, List.map_congr_left hold]
    exact List.nodup_cons.2 ⟨hpage, h.pages⟩
  · intro p hp
    rw [used_hooked]
    rcases List.mem_cons.1 (List.perm_middle.mem_iff.1 hp) with rfl | hp
    · exact hused
    · exact h.used p hp
  · rw [hnode]

/-! ### Another entry for a node -/

/-- The database with another entry and another space for a node. -/
def granted (m : Mdb) (x prev g tSpace : Word) : Mdb :=
  let m := m.setBacklink x (m.node x).isPrevRoot prev g
  m.setNode x { m.node x with space := tSpace }

theorem node_granted_self {prev tSpace : Word} : (m.granted x prev g tSpace).node x =
    { m.node x with prev := prev ^^^ g, space := tSpace } := by
  rw [granted, node_setBacklink_self]
  exact Function.update_self ..

theorem node_granted_of_ne {prev tSpace : Word} (h : p ≠ x) :
    (m.granted x prev g tSpace).node p = m.node p :=
  (Function.update_of_ne h ..).trans (node_setBacklink_of_ne h)

theorem next_granted {prev tSpace : Word} : (m.granted x prev g tSpace).next f = m.next f := by
  cases f with
  | node p =>
    rw [next_node, next_node]
    by_cases h : p = x
    · subst h
      rw [node_granted_self]
    · rw [node_granted_of_ne h]
  | root r => rfl

theorem depth_granted {prev tSpace : Word} :
    ((m.granted x prev g tSpace).node p).depth = (m.node p).depth := by
  by_cases h : p = x
  · subst h
    rw [node_granted_self]
  · rw [node_granted_of_ne h]

theorem mdbMap_grant {fHwpgsize tHwpgsize : Nat} {fAddr tSpace : Word} :
    b.mdbMap x g fHwpgsize fAddr tPg tHwpgsize tSpace true m =
      some (x, m.granted x ((m.node x).prev ^^^ g) tPg tSpace) := rfl

theorem Holds.grant {tSpace : Word} (h : m.Holds pg root (A ++ x :: B))
    (hpage : tPg ∉ (A ++ B).map pg) :
    (m.granted x ((m.node x).prev ^^^ pg x) tPg tSpace).Holds (Function.update pg x tPg) root
      (A ++ x :: B) := by
  obtain ⟨q, hsegment, hfollows, hrest⟩ := linked_append.1 h.linked
  have hnodup := List.nodup_middle.1 h.nodup
  obtain ⟨hx, hAB⟩ := List.nodup_cons.1 hnodup
  have hne : ∀ p ∈ A ++ B, p ≠ x := by
    rintro p hp rfl
    exact hx hp
  have hold : ∀ p ∈ A ++ B, Function.update pg x tPg p = pg p :=
    fun p hp => Function.update_of_ne (hne p hp) ..
  have hA : ∀ p ∈ A, p ∈ A ++ B := fun p hp => List.mem_append_left _ hp
  have hB : ∀ p ∈ B, p ∈ A ++ B := fun p hp => List.mem_append_right _ hp
  have hprev : (m.node x).prev ^^^ pg x = q.ptr := by
    rw [hfollows.prev, BitVec.xor_assoc, BitVec.xor_self, BitVec.xor_zero]
  refine ⟨linked_append.2 ⟨q, ?_, ⟨?_, hfollows.ne_zero, ?_, ?_⟩, ?_⟩, h.nodup, ?_, h.used⟩
  · refine hsegment.congr (List.nodup_append'.1 hAB).1 (by rintro p - ⟨⟩) (fun _ => next_granted)
      (fun _ _ _ => next_granted) (fun p hp => ?_) (fun p hp => ?_) fun p hp => hold p (hA p hp)
    · rw [node_granted_of_ne (hne p (hA p hp))]
    · rw [node_granted_of_ne (hne p (hA p hp))]
  · exact next_granted.trans hfollows.next
  · rw [node_granted_self]
    exact hfollows.isPrevRoot
  · rw [node_granted_self, Function.update_self, hprev]
  · exact hrest.congr next_granted (fun p hp => node_granted_of_ne (hne p (hB p hp)))
      fun p hp => hold p (hB p hp)
  · rw [List.map_append, List.map_cons, List.nodup_middle, ← List.map_append,
      Function.update_self, List.map_congr_left hold]
    have hpages := h.pages
    rw [List.map_append, List.map_cons, List.nodup_middle, ← List.map_append] at hpages
    exact List.nodup_cons.2 ⟨hpage, (List.nodup_cons.1 hpages).2⟩

/-! ### Arrays of roots -/

/-- The place for an address below another, where the arrays of roots are there. -/
def placeBelow (m : Mdb) (fAddr : Word) : Nat → Nat → MdbPlace → Option MdbPlace
  | _, 0, q => some q
  | fPgsize, n + 1, q =>
    let size := fPgsize - 1
    let root := m.getRoot (m.next q)
    if root = 0 then none
    else
      let r := root + BitVec.ofNat 64 (rootnodeSize * mdbGetIndex size fAddr)
      m.placeBelow fAddr size n (.root r)

/-- Arrays of roots that are there are not created again, and used buffers do not matter. -/
theorem intoSubtree_eq {fAddr : Word} {used : Word → Bool} {k : Nat} : ∀ {size : Nat} {q},
    m.placeBelow fAddr size k q = some f →
      b.intoSubtree fAddr size k q { m with used } = some (f, { m with used }) := by
  induction k with
  | zero =>
    rintro size q ⟨⟩
    rfl
  | succ k ih =>
    intro size q h
    rw [placeBelow] at h
    by_cases hroot : m.getRoot (m.next q) = 0
    · rw [if_pos hroot] at h
      cases h
    · rw [if_neg hroot] at h
      have hbelow : b.below (size - 1) q { m with used } =
          some (m.getRoot (m.next q), { m with used }) := if_neg hroot
      rw [MdbBuffers.intoSubtree, hbelow]
      exact ih h

end Mdb

end L4Thread
