import Mathlib.Algebra.Order.Ring.Nat
import Mathlib.Data.List.Nodup
import Mathlib.Logic.Function.Basic

/-!
# Scatter and gather

The addresses of memory that is given in fragments, and copies along pairs of a source and a
destination address. What a copy writes is known if it does not read a place that it has written.
-/

namespace Scatter

variable {w : Nat} {α β : Type} {a : BitVec w} {m n : Nat}

/-! ## Fragments -/

/-- The `n` addresses from `a` on. -/
def segment (a : BitVec w) (n : Nat) : List (BitVec w) :=
  (List.range n).map fun i => a + BitVec.ofNat w i

@[simp] theorem segment_zero : segment a 0 = [] := rfl

@[simp] theorem length_segment : (segment a n).length = n := by simp [segment]

theorem mem_segment {b : BitVec w} : b ∈ segment a n ↔ ∃ i < n, a + BitVec.ofNat w i = b := by
  simp only [segment, List.mem_map, List.mem_range]

theorem segment_add : segment a (m + n) = segment a m ++ segment (a + BitVec.ofNat w m) n := by
  simp only [segment, List.range_add, List.map_append, List.map_map]
  congr 2
  funext i
  rw [Function.comp_apply, BitVec.ofNat_add, BitVec.add_assoc]

/-- A segment is cut in two. -/
theorem segment_split (h : m ≤ n) :
    segment a n = segment a m ++ segment (a + BitVec.ofNat w m) (n - m) := by
  rw [← segment_add, Nat.add_sub_cancel' h]

/-- Start and length. -/
abbrev Fragment (w : Nat) := BitVec w × BitVec w

/-- The addresses of some fragments, one after the other. -/
def bytes (fs : List (Fragment w)) : List (BitVec w) := fs.flatMap fun f => segment f.1 f.2.toNat

@[simp] theorem bytes_nil : bytes ([] : List (Fragment w)) = [] := rfl

@[simp] theorem bytes_cons {f : Fragment w} {fs : List (Fragment w)} :
    bytes (f :: fs) = segment f.1 f.2.toNat ++ bytes fs := List.flatMap_cons

/-- An empty fragment. -/
theorem bytes_empty {fs : List (Fragment w)} : bytes ((a, 0) :: fs) = bytes fs := by
  rw [bytes_cons, show (0 : BitVec w).toNat = 0 from rfl, segment_zero, List.nil_append]

/-- The first bytes are cut off. -/
theorem bytes_cut {len n : BitVec w} {fs : List (Fragment w)} (h : n ≤ len) :
    bytes ((a, len) :: fs) = segment a n.toNat ++ bytes ((a + n, len - n) :: fs) := by
  rw [bytes_cons, bytes_cons, segment_split (BitVec.le_def.1 h), BitVec.ofNat_toNat,
    BitVec.setWidth_eq, BitVec.toNat_sub_of_le h, List.append_assoc]

/-! ## Copies -/

variable [DecidableEq α] {mem : α → β} {pairs : List (α × α)}

/-- The memory after a copy along pairs of a source and a destination, in their order. -/
def copy (mem : α → β) (pairs : List (α × α)) : α → β :=
  pairs.foldl (fun m p => Function.update m p.2 (m p.1)) mem

theorem copy_append {pairs' : List (α × α)} :
    copy mem (pairs ++ pairs') = copy (copy mem pairs) pairs' := List.foldl_append

/-- Other places keep what they hold. -/
theorem copy_of_notMem {a : α} (h : a ∉ pairs.map Prod.snd) : copy mem pairs a = mem a := by
  induction pairs generalizing mem with
  | nil => rfl
  | cons p pairs ih =>
    rw [List.map_cons, List.mem_cons, not_or] at h
    rw [copy, List.foldl_cons]
    exact (ih h.2).trans (Function.update_of_ne h.1 _ _)

/-- A place that is written once gets what its source held, if no source is written. -/
theorem copy_apply {a b : α} (hnodup : (pairs.map Prod.snd).Nodup)
    (hsrc : ∀ p ∈ pairs, p.1 ∉ pairs.map Prod.snd) (h : (a, b) ∈ pairs) :
    copy mem pairs b = mem a := by
  induction pairs generalizing mem with
  | nil => cases h
  | cons p pairs ih =>
    rw [List.map_cons, List.nodup_cons] at hnodup
    rw [copy, List.foldl_cons]
    rcases List.mem_cons.1 h with rfl | h
    · exact (copy_of_notMem hnodup.1).trans (Function.update_self ..)
    · have hrest : ∀ q ∈ pairs, q.1 ∉ pairs.map Prod.snd := fun q hq hmem =>
        hsrc q (List.mem_cons_of_mem _ hq) (List.mem_cons_of_mem _ hmem)
      refine (ih hnodup.2 hrest h).trans (Function.update_of_ne ?_ _ _)
      rintro rfl
      exact hsrc _ (List.mem_cons_of_mem _ h) (List.mem_cons_self ..)

/-! ## Copies of fragmented memory -/

/-- A place in two lists that are walked together: what lies behind it, and the pairs passed. -/
def Passed (xs ys : List α) (pairs : List (α × α)) (xs' ys' : List α) : Prop :=
  ∃ as bs, as.length = bs.length ∧ pairs = as.zip bs ∧ xs = as ++ xs' ∧ ys = bs ++ ys'

namespace Passed

omit [DecidableEq α]

variable {xs ys xs' ys' as bs : List α}

theorem refl : Passed xs ys [] xs ys := ⟨[], [], rfl, rfl, rfl, rfl⟩

/-- As many further elements of both lists. -/
theorem step (h : Passed xs ys pairs (as ++ xs') (bs ++ ys')) (hlen : as.length = bs.length) :
    Passed xs ys (pairs ++ as.zip bs) xs' ys' := by
  obtain ⟨as', bs', hlen', rfl, rfl, rfl⟩ := h
  refine ⟨as' ++ as, bs' ++ bs, ?_, (List.zip_append hlen').symm, ?_, ?_⟩
  · rw [List.length_append, List.length_append, hlen, hlen']
  · rw [List.append_assoc]
  · rw [List.append_assoc]

/-- The pairs passed are the first ones. -/
theorem isPrefix (h : Passed xs ys pairs xs' ys') : pairs <+: xs.zip ys := by
  obtain ⟨as, bs, hlen, rfl, rfl, rfl⟩ := h
  exact ⟨xs'.zip ys', (List.zip_append hlen).symm⟩

/-- At the end of one of the lists they are all. -/
theorem eq_zip (h : Passed xs ys pairs xs' ys') (hend : xs' = [] ∨ ys' = []) :
    pairs = xs.zip ys := by
  obtain ⟨as, bs, hlen, rfl, rfl, rfl⟩ := h
  rw [List.zip_append hlen]
  rcases hend with rfl | rfl
  · rw [List.zip_nil_left, List.append_nil]
  · rw [List.zip_nil_right, List.append_nil]

/-- At the end of the first list it has been passed as a whole. -/
theorem length_eq (h : Passed xs ys pairs [] ys') : pairs.length = xs.length := by
  obtain ⟨as, bs, hlen, rfl, rfl, rfl⟩ := h
  rw [List.length_zip, List.append_nil, hlen, Nat.min_self]

/-- At the end of the second list the first one is not shorter. -/
theorem length_le (h : Passed xs ys pairs xs' []) : ys.length ≤ xs.length := by
  obtain ⟨as, bs, hlen, rfl, rfl, rfl⟩ := h
  rw [List.length_append, List.length_append, List.length_nil, hlen]
  omega

end Passed

/-! ## Several copies -/

/-- The pairs of the lists at the same place. -/
def pairsOf (xss yss : List (List α)) : List (α × α) := (List.zipWith List.zip xss yss).flatten

/-- Each list goes into the one at the same place. -/
def FitsIn : List (List α) → List (List α) → Prop
  | [], _ => True
  | _ :: _, [] => False
  | xs :: xss, ys :: yss => xs.length ≤ ys.length ∧ FitsIn xss yss

section Pairs

omit [DecidableEq α]

variable {xs ys : List α} {xss yss : List (List α)}

@[simp] theorem pairsOf_nil : pairsOf ([] : List (List α)) yss = [] := rfl

@[simp] theorem pairsOf_cons :
    pairsOf (xs :: xss) (ys :: yss) = xs.zip ys ++ pairsOf xss yss := rfl

@[simp] theorem pairsOf_cons_nil : pairsOf (xs :: xss) ([] : List (List α)) = [] := rfl

theorem fst_mem_of_mem_pairsOf {p : α × α} (h : p ∈ pairsOf xss yss) : p.1 ∈ xss.flatten := by
  induction xss generalizing yss with
  | nil => cases h
  | cons xs xss ih =>
    cases yss with
    | nil => cases h
    | cons ys yss =>
      rw [pairsOf_cons, List.mem_append] at h
      rw [List.flatten_cons, List.mem_append]
      exact h.imp (fun h => (List.of_mem_zip h).1) ih

theorem map_snd_zip_sublist : ((xs.zip ys).map Prod.snd).Sublist ys := by
  induction xs generalizing ys with
  | nil => exact List.nil_sublist _
  | cons x xs ih =>
    cases ys with
    | nil => exact List.nil_sublist _
    | cons y ys => exact ih.cons_cons y

theorem map_snd_pairsOf_sublist : ((pairsOf xss yss).map Prod.snd).Sublist yss.flatten := by
  induction xss generalizing yss with
  | nil => exact List.nil_sublist _
  | cons xs xss ih =>
    cases yss with
    | nil => exact List.nil_sublist _
    | cons ys yss =>
      rw [pairsOf_cons, List.map_append, List.flatten_cons]
      exact map_snd_zip_sublist.append ih

/-- The first elements of a list hold what another one holds. -/
theorem map_take_eq {mem mem' : α → β} (hlen : xs.length ≤ ys.length)
    (h : ∀ p ∈ xs.zip ys, mem' p.2 = mem p.1) : (ys.take xs.length).map mem' = xs.map mem := by
  induction xs generalizing ys with
  | nil => rfl
  | cons x xs ih =>
    cases ys with
    | nil => cases hlen
    | cons y ys =>
      rw [List.zip_cons_cons, List.forall_mem_cons] at h
      rw [List.length_cons, List.take_succ_cons, List.map_cons, List.map_cons, h.1,
        ih (Nat.le_of_succ_le_succ hlen) h.2]

theorem zipWith_take_eq {mem mem' : α → β} (hfits : FitsIn xss yss)
    (h : ∀ p ∈ pairsOf xss yss, mem' p.2 = mem p.1) :
    List.zipWith (fun xs ys => (ys.take xs.length).map mem') xss yss = xss.map (List.map mem) := by
  induction xss generalizing yss with
  | nil => rfl
  | cons xs xss ih =>
    cases yss with
    | nil => exact hfits.elim
    | cons ys yss =>
      rw [pairsOf_cons, List.forall_mem_append] at h
      rw [List.zipWith_cons_cons, List.map_cons, map_take_eq hfits.1 h.1, ih hfits.2 h.2]

end Pairs

/-- What the lists held has come to the others, if these are disjoint from each other and from
them. -/
theorem copy_pairsOf {xss yss : List (List α)} (hfits : FitsIn xss yss)
    (hnodup : yss.flatten.Nodup) (hdisj : ∀ a ∈ xss.flatten, a ∉ yss.flatten) :
    List.zipWith (fun xs ys => (ys.take xs.length).map (copy mem (pairsOf xss yss))) xss yss =
      xss.map (List.map mem) := by
  have hsub : ((pairsOf xss yss).map Prod.snd).Sublist yss.flatten := map_snd_pairsOf_sublist
  refine zipWith_take_eq hfits fun p hp => copy_apply (hsub.nodup hnodup) (fun q hq hmem => ?_) hp
  exact hdisj _ (fst_mem_of_mem_pairsOf hq) (hsub.subset hmem)

end Scatter
