import Mathlib.Data.List.Nodup
import Mathlib.Data.List.TakeWhile
import Mathlib.Logic.Function.Basic
import Mathlib.Logic.Relation

/-!
# Forests in traversal order

A forest that is kept as a list of its nodes with their depths. Every node stands somewhere behind
its parent, and all nodes between them are deeper than the parent, so that the nodes derived from a
node are the deeper ones up to the first that is not.
-/

namespace Forest

variable {α : Type} {depth depth' : α → Nat} {parent : α → Option α} {L A B : List α} {x y z : α}

/-- A list without duplicates has one place for a node. -/
theorem split_unique {A' B' : List α} (hnodup : (A ++ x :: B).Nodup)
    (h : A ++ x :: B = A' ++ x :: B') : A = A' ∧ B = B' := by
  have hnotin : x ∉ A ++ B := (List.nodup_cons.1 (List.nodup_middle.1 hnodup)).1
  rw [List.mem_append, not_or] at hnotin
  obtain ⟨hA, -, hB⟩ := (List.append_cons_inj_of_notMem hnotin.1 hnotin.2).1 h
  exact ⟨hA, hB⟩

/-- `y` is a child of `x`, or a child of what is derived from it. -/
def Derived (parent : α → Option α) (y x : α) : Prop :=
  Relation.TransGen (fun a b => parent a = some b) y x

/-- `y` stands behind `x`, and from behind `x` up to `y` all nodes are deeper than `x`. -/
def Under (depth : α → Nat) (L : List α) (y x : α) : Prop :=
  ∃ A M C, L = A ++ x :: (M ++ y :: C) ∧ ∀ z ∈ M ++ [y], depth x < depth z

namespace Under

theorem right_mem (h : Under depth L y x) : x ∈ L := by
  obtain ⟨A, M, C, rfl, -⟩ := h
  simp

theorem lt (h : Under depth L y x) : depth x < depth y := by
  obtain ⟨A, M, C, -, hlt⟩ := h
  exact hlt y (List.mem_append_right _ (List.mem_singleton_self y))

theorem trans (hnodup : L.Nodup) (h : Under depth L z y) (h' : Under depth L y x) :
    Under depth L z x := by
  have hyx := h'.lt
  have hzy := h.lt
  obtain ⟨A, M, C, rfl, hlt⟩ := h'
  obtain ⟨A', M', C', heq, hlt'⟩ := h
  have hassoc : A ++ x :: (M ++ y :: C) = (A ++ x :: M) ++ y :: C := by
    rw [List.append_assoc, List.cons_append]
  rw [hassoc] at hnodup heq
  obtain ⟨-, rfl⟩ := split_unique hnodup heq
  refine ⟨A, M ++ y :: M', C', ?_, fun w hw => ?_⟩
  · rw [List.append_assoc, List.cons_append]
  · rw [List.mem_append, List.mem_append, List.mem_cons, List.mem_singleton] at hw
    rcases hw with (hw | rfl | hw) | rfl
    · exact hlt w (List.mem_append_left _ hw)
    · exact hyx
    · exact hyx.trans (hlt' w (List.mem_append_left _ hw))
    · exact hyx.trans hzy

/-- What is kept of the list keeps its place. -/
theorem filter {p : α → Bool} (h : Under depth L y x) (hy : p y = true) (hx : p x = true) :
    Under depth (L.filter p) y x := by
  obtain ⟨A, M, C, rfl, hlt⟩ := h
  refine ⟨A.filter p, M.filter p, C.filter p, ?_, fun z hz => ?_⟩
  · rw [List.filter_append, List.filter_cons_of_pos hx, List.filter_append,
      List.filter_cons_of_pos hy]
  · rw [List.mem_append] at hz
    exact hlt z (List.mem_append.2 (hz.imp_left List.mem_of_mem_filter))

theorem congr (h : Under depth L y x) (hdepth : ∀ z ∈ L, depth' z = depth z) :
    Under depth' L y x := by
  have hx := hdepth x h.right_mem
  obtain ⟨A, M, C, rfl, hlt⟩ := h
  refine ⟨A, M, C, rfl, fun z hz => ?_⟩
  rw [hx, hdepth z]
  · exact hlt z hz
  · rw [List.mem_append, List.mem_singleton] at hz
    rcases hz with hz | rfl
    · simp [hz]
    · simp

end Under

/-- The nodes under a node are the deeper ones that follow it. -/
theorem under_iff_mem_takeWhile (hnodup : (A ++ x :: B).Nodup) :
    Under depth (A ++ x :: B) y x ↔ y ∈ B.takeWhile fun z => depth x < depth z := by
  constructor
  · rintro ⟨A', M, C, heq, hlt⟩
    obtain ⟨-, rfl⟩ := split_unique hnodup heq
    have hall : ∀ z ∈ M ++ [y], decide (depth x < depth z) = true :=
      fun z hz => decide_eq_true (hlt z hz)
    rw [← List.singleton_append, ← List.append_assoc, List.takeWhile_append_of_pos hall]
    exact List.mem_append_left _ (List.mem_append_right _ (List.mem_singleton_self y))
  · intro hy
    obtain ⟨M, C, hM⟩ := List.append_of_mem hy
    have hB : (B.takeWhile fun z => depth x < depth z) ++ B.dropWhile (fun z => depth x < depth z) =
        B := List.takeWhile_append_dropWhile
    rw [hM, List.append_assoc, List.cons_append] at hB
    refine ⟨A, M, _, by rw [← hB], fun z hz => ?_⟩
    have hmem : z ∈ B.takeWhile fun z => depth x < depth z := by
      rw [hM]
      rw [List.mem_append, List.mem_singleton] at hz
      rcases hz with hz | rfl
      · exact List.mem_append_left _ hz
      · exact List.mem_append_right _ (List.mem_cons_self ..)
    have hdeep : decide (depth x < depth z) = true :=
      List.mem_takeWhile_imp (p := fun z => decide (depth x < depth z)) hmem
    exact of_decide_eq_true hdeep

/-! ## Forests -/

/-- The list and the depths are those of the forest. -/
structure IsForest (depth : α → Nat) (parent : α → Option α) (L : List α) : Prop where
  nodup : L.Nodup
  child : ∀ {y x}, y ∈ L → parent y = some x → depth y = depth x + 1 ∧ Under depth L y x
  root : ∀ {y x}, y ∈ L → parent y = none → x ∈ L → depth y ≤ depth x

namespace IsForest

theorem under_of_derived (h : IsForest depth parent L) (hy : y ∈ L) (hd : Derived parent y x) :
    Under depth L y x := by
  induction hd with
  | single hchild => exact (h.child hy hchild).2
  | tail _ hchild ih => exact ih.trans h.nodup (h.child ih.right_mem hchild).2

theorem derived_of_under (h : IsForest depth parent L) (hunder : Under depth L y x) :
    Derived parent y x := by
  have hx := hunder.right_mem
  obtain ⟨A, M, C, rfl, hdeeper⟩ := hunder
  -- the parent of `y` is `x`, or it stands between `x` and `y`
  induction hM : M.length using Nat.strong_induction_on generalizing M y C with
  | _ n ih =>
    have hy : y ∈ A ++ x :: (M ++ y :: C) := by simp
    have hlt : depth x < depth y := hdeeper y (by simp)
    cases hparent : parent y with
    | none => exact absurd (h.root hy hparent hx) (Nat.not_le_of_lt hlt)
    | some z =>
      obtain ⟨hdepth, A', M', C', heq, hbetween⟩ := h.child hy hparent
      have hfront : A ++ x :: M = A' ++ z :: M' := by
        have hnodup := h.nodup
        have hassoc : (A ++ x :: M) ++ y :: C = (A' ++ z :: M') ++ y :: C' := by
          rw [List.append_assoc, List.cons_append, heq, List.append_assoc, List.cons_append]
        rw [← List.cons_append, ← List.append_assoc] at hnodup
        exact (split_unique hnodup hassoc).1
      rcases List.append_eq_append_iff.1 hfront with ⟨D, -, hD⟩ | ⟨D, -, hD⟩
      · cases D with
        | nil =>
          cases hD
          exact .single hparent
        | cons d D =>
          have hsplit : M = D ++ z :: M' := (List.cons_eq_cons.1 hD).2
          subst hsplit
          have hshorter : D.length < n := by
            rw [← hM, List.length_append, List.length_cons]
            omega
          have hassoc : D ++ z :: M' ++ y :: C = D ++ z :: (M' ++ y :: C) := by
            rw [List.append_assoc, List.cons_append]
          rw [hassoc] at h hx
          refine .head hparent (ih D.length hshorter D _ (fun w hw => hdeeper w ?_) h hx rfl)
          rw [List.mem_append, List.mem_singleton] at hw
          rcases hw with hw | rfl
          · simp [hw]
          · simp
      · cases D with
        | nil =>
          cases hD
          exact .single hparent
        | cons d D =>
          obtain ⟨rfl, rfl⟩ := List.cons_eq_cons.1 hD
          have hxz := hbetween x (by simp)
          omega

/-- What is derived from a node is what stands under it. -/
theorem derived_iff_under (h : IsForest depth parent L) (hy : y ∈ L) :
    Derived parent y x ↔ Under depth L y x :=
  ⟨h.under_of_derived hy, h.derived_of_under⟩

/-- A part of the forest that holds the parents of its nodes. -/
theorem filter {p : α → Bool} (h : IsForest depth parent L)
    (hp : ∀ {y x}, y ∈ L → p y = true → parent y = some x → p x = true) :
    IsForest depth parent (L.filter p) where
  nodup := h.nodup.filter p
  child := by
    intro y x hy hparent
    obtain ⟨hy, hkept⟩ := List.mem_filter.1 hy
    obtain ⟨hdepth, hunder⟩ := h.child hy hparent
    exact ⟨hdepth, hunder.filter hkept (hp hy hkept hparent)⟩
  root := fun hy hparent hx =>
    h.root (List.mem_of_mem_filter hy) hparent (List.mem_of_mem_filter hx)

theorem congr (h : IsForest depth parent L) (hdepth : ∀ z ∈ L, depth' z = depth z) :
    IsForest depth' parent L where
  nodup := h.nodup
  child := by
    intro y x hy hparent
    obtain ⟨hd, hunder⟩ := h.child hy hparent
    exact ⟨by rw [hdepth y hy, hdepth x hunder.right_mem, hd], hunder.congr hdepth⟩
  root := by
    intro y x hy hparent hx
    rw [hdepth y hy, hdepth x hx]
    exact h.root hy hparent hx

end IsForest

/-! ## Insertion -/

section Insert

variable [DecidableEq α] {new : α}

/-- A new node behind a node. -/
def insertBehind (x new : α) (L : List α) : List α :=
  L.flatMap fun y => if y = x then [y, new] else [y]

theorem insertBehind_eq (hnodup : (A ++ x :: B).Nodup) :
    insertBehind x new (A ++ x :: B) = A ++ x :: new :: B := by
  have hsame : ∀ {M : List α}, x ∉ M → insertBehind x new M = M := by
    intro M hM
    induction M with
    | nil => rfl
    | cons y M ih =>
      obtain ⟨hne, hM⟩ := List.ne_and_not_mem_of_not_mem_cons hM
      have hrest := ih hM
      rw [insertBehind] at hrest ⊢
      rw [List.flatMap_cons, if_neg hne.symm, hrest, List.singleton_append]
  have hnotin : x ∉ A ++ B := (List.nodup_cons.1 (List.nodup_middle.1 hnodup)).1
  rw [List.mem_append, not_or] at hnotin
  have hA := hsame hnotin.1
  have hB := hsame hnotin.2
  rw [insertBehind] at hA hB ⊢
  rw [List.flatMap_append, List.flatMap_cons, hA, hB, if_pos rfl]
  rfl

theorem mem_insertBehind : y ∈ insertBehind x new L → y ∈ L ∨ y = new ∧ x ∈ L := by
  intro hy
  obtain ⟨z, hz, hy⟩ := List.mem_flatMap.1 hy
  split at hy
  · subst z
    rcases List.mem_cons.1 hy with rfl | hy
    · exact .inl hz
    · exact .inr ⟨List.mem_singleton.1 hy, hz⟩
  · exact .inl (List.mem_singleton.1 hy ▸ hz)

theorem insertBehind_append :
    insertBehind x new (A ++ B) = insertBehind x new A ++ insertBehind x new B :=
  List.flatMap_append

theorem insertBehind_cons : insertBehind x new (y :: L) =
    y :: ((if y = x then [new] else []) ++ insertBehind x new L) := by
  rw [insertBehind, List.flatMap_cons]
  split <;> rfl

/-- The new node does not come between a node and what stands under it, unless it is deep enough. -/
theorem Under.insertBehind (h : Under depth L y z) (hnew : depth new = depth x + 1) :
    Under depth (insertBehind x new L) y z := by
  obtain ⟨A, M, C, rfl, hlt⟩ := h
  refine ⟨Forest.insertBehind x new A,
    (if z = x then [new] else []) ++ Forest.insertBehind x new M,
    (if y = x then [new] else []) ++ Forest.insertBehind x new C, ?_, fun w hw => ?_⟩
  · rw [insertBehind_append, insertBehind_cons, insertBehind_append, insertBehind_cons,
      List.append_assoc]
  · rw [List.mem_append, List.mem_append, List.mem_singleton] at hw
    rcases hw with (hw | hw) | rfl
    · split at hw
      · rename_i hz
        rw [List.mem_singleton.1 hw, hz, hnew]
        exact Nat.lt_succ_self _
      · cases hw
    · rcases mem_insertBehind hw with hw | ⟨rfl, hx⟩
      · exact hlt w (List.mem_append_left _ hw)
      · rw [hnew]
        exact Nat.lt_succ_of_lt (hlt x (List.mem_append_left _ hx))
    · exact hlt w (List.mem_append_right _ (List.mem_singleton_self w))

/-- A node gets a new first child. -/
theorem IsForest.insertBehind (h : IsForest depth parent L) (hx : x ∈ L) (hnew : new ∉ L) :
    IsForest (Function.update depth new (depth x + 1)) (Function.update parent new (some x))
      (insertBehind x new L) := by
  have hne : ∀ {y}, y ∈ L → y ≠ new := by
    rintro y hy rfl
    exact hnew hy
  have hkeep : ∀ y ∈ L, Function.update depth new (depth x + 1) y = depth y :=
    fun y hy => Function.update_of_ne (hne hy) _ _
  have hdepth : Function.update depth new (depth x + 1) new =
      Function.update depth new (depth x + 1) x + 1 := by
    rw [Function.update_self, hkeep x hx]
  obtain ⟨A, B, rfl⟩ := List.append_of_mem hx
  refine { nodup := ?_, child := ?_, root := ?_ }
  · rw [insertBehind_eq h.nodup, ← List.singleton_append, ← List.append_assoc, List.nodup_middle,
      List.nodup_cons, List.append_assoc]
    exact ⟨hnew, h.nodup⟩
  · intro y z hy hparent
    rcases mem_insertBehind hy with hy | ⟨rfl, -⟩
    · rw [Function.update_of_ne (hne hy)] at hparent
      obtain ⟨hd, hunder⟩ := h.child hy hparent
      rw [hkeep y hy, hkeep z hunder.right_mem]
      exact ⟨hd, (hunder.congr hkeep).insertBehind hdepth⟩
    · rw [Function.update_self] at hparent
      cases hparent
      rw [insertBehind_eq h.nodup]
      refine ⟨hdepth, A, [], B, rfl, fun w hw => ?_⟩
      rw [List.nil_append, List.mem_singleton] at hw
      rw [hw, hdepth]
      exact Nat.lt_succ_self _
  · intro y z hy hparent hz
    rcases mem_insertBehind hy with hyL | ⟨rfl, -⟩
    · rw [Function.update_of_ne (hne hyL)] at hparent
      rw [hkeep y hyL]
      rcases mem_insertBehind hz with hzL | ⟨rfl, -⟩
      · rw [hkeep z hzL]
        exact h.root hyL hparent hzL
      · rw [Function.update_self]
        exact (h.root hyL hparent hx).trans (Nat.le_succ _)
    · rw [Function.update_self] at hparent
      cases hparent

/-- A new root in front. -/
theorem IsForest.cons (h : IsForest depth parent L) (hnew : new ∉ L)
    (hle : ∀ y ∈ L, depth new ≤ depth y)
    (hroot : ∀ y ∈ L, parent y = none → depth y ≤ depth new) :
    IsForest depth (Function.update parent new none) (new :: L) := by
  have hkeep : ∀ y ∈ L, Function.update parent new none y = parent y := by
    intro y hy
    refine Function.update_of_ne ?_ ..
    rintro rfl
    exact hnew hy
  refine { nodup := List.nodup_cons.2 ⟨hnew, h.nodup⟩, child := ?_, root := ?_ }
  · intro y x hy hparent
    rcases List.mem_cons.1 hy with rfl | hy
    · rw [Function.update_self] at hparent
      cases hparent
    · rw [hkeep y hy] at hparent
      obtain ⟨hd, A, M, C, rfl, hlt⟩ := h.child hy hparent
      exact ⟨hd, new :: A, M, C, rfl, hlt⟩
  · intro y x hy hparent hx
    rcases List.mem_cons.1 hy with rfl | hyL
    · rcases List.mem_cons.1 hx with rfl | hxL
      · exact Nat.le_refl _
      · exact hle x hxL
    · rw [hkeep y hyL] at hparent
      rcases List.mem_cons.1 hx with rfl | hxL
      · exact hroot y hyL hparent
      · exact h.root hyL hparent hxL

end Insert

/-! ## Removal -/

theorem filter_middle [DecidableEq α] {R C : List α} (hnodup : (A ++ (R ++ C)).Nodup) :
    (A ++ (R ++ C)).filter (fun y => y ∉ R) = A ++ C := by
  obtain ⟨-, hRC, hA⟩ := List.nodup_append'.1 hnodup
  obtain ⟨-, -, hR⟩ := List.nodup_append'.1 hRC
  have hAR : A.filter (fun y => y ∉ R) = A := List.filter_eq_self.2 fun y hy =>
    decide_eq_true fun hyR => hA hy (List.mem_append_left _ hyR)
  have hRR : R.filter (fun y => y ∉ R) = [] := List.filter_eq_nil_iff.2 fun y hy hyR =>
    of_decide_eq_true hyR hy
  have hCR : C.filter (fun y => y ∉ R) = C := List.filter_eq_self.2 fun y hy =>
    decide_eq_true fun hyR => hR hyR hy
  rw [List.filter_append, List.filter_append, hAR, hRR, hCR, List.nil_append]

/-- The deeper nodes behind a node. -/
def below (depth : α → Nat) (x : α) (B : List α) : List α :=
  B.takeWhile fun z => depth x < depth z

theorem IsForest.mem_below_iff (h : IsForest depth parent (A ++ x :: B)) (hy : y ∈ A ++ x :: B) :
    y ∈ below depth x B ↔ Derived parent y x :=
  (under_iff_mem_takeWhile h.nodup).symm.trans (h.derived_iff_under hy).symm

end Forest
