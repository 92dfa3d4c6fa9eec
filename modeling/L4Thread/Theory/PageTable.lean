import L4Thread.Kernel.PageTable
import L4Thread.Lib.Mask
import Mathlib.Tactic.IntervalCases
import Mathlib.Logic.Function.Basic

/-!
# Locality of page table operations

What an operation on one entry changes of the translation. An entry is read at its own size and, if
it is the first of a larger group, at the sizes of the groups it stands for; an operation is local
as long as the larger groups still read as split.
-/

namespace L4Thread

/-- The entry is the first of a split group of size `s`. -/
def Pgent.Split (e : Pgent) (s : Nat) : Prop := e.valid s = true ∧ e.subtree s = true

/-- The address of the page that an entry of the tables of the user area is for. -/
def PgPtr.pageAddress : PgPtr → Nat
  | ⟨.root, k⟩ => k * 2 ^ 32
  | ⟨.dir i, k⟩ => i * 2 ^ 32 + k * 2 ^ 22
  | ⟨.leaf i j, k⟩ => i * 2 ^ 32 + j * 2 ^ 22 + k * 2 ^ 12

namespace PageTable

variable {pt pt' : PageTable} {a v : Word} {s r : Nat}

theorem pageShift_bounds (hs : s ≤ 7) : 12 ≤ pageShift s ∧ pageShift s ≤ 32 := by
  interval_cases s <;> exact ⟨by decide, by decide⟩

theorem pageMask_eq (hs : s ≤ 7) : pageMask s = Mask.low 64 (pageShift s) := by
  interval_cases s
  all_goals decide

/-! ## The entries of an address -/

/-- The entry of size `s` a walk for `v` looks at. -/
def entryPtr (v : Word) (s : Nat) : PgPtr :=
  let d := fun r => pageTableIndex r v
  match s with
  | 7 => ⟨.root, d 7⟩
  | 6 => ⟨.dir (d 7), 4 * d 6⟩
  | 5 => ⟨.dir (d 7), 4 * d 6 + d 5⟩
  | 4 => ⟨.leaf (d 7) (4 * d 6 + d 5), 256 * d 4⟩
  | 3 => ⟨.leaf (d 7) (4 * d 6 + d 5), 256 * d 4 + 64 * d 3⟩
  | 2 => ⟨.leaf (d 7) (4 * d 6 + d 5), 256 * d 4 + 64 * d 3 + 16 * d 2⟩
  | 1 => ⟨.leaf (d 7) (4 * d 6 + d 5), 256 * d 4 + 64 * d 3 + 16 * d 2 + 4 * d 1⟩
  | _ => ⟨.leaf (d 7) (4 * d 6 + d 5), 256 * d 4 + 64 * d 3 + 16 * d 2 + 4 * d 1 + d 0⟩

/-- `v` is in the page of size `s` at `a`. The tables cover 41 bits; higher bits of an address are
not looked at. -/
def SamePage (s : Nat) (a v : Word) : Prop :=
  v.toNat % 2 ^ 41 / 2 ^ pageShift s = a.toNat % 2 ^ 41 / 2 ^ pageShift s

instance (s : Nat) (a v : Word) : Decidable (SamePage s a v) :=
  inferInstanceAs (Decidable (_ = _))

theorem rootPtr_eq (v : Word) : rootPtr v = entryPtr v 7 := by
  simp [rootPtr, PgPtr.next, PgPtr.stride, PgSize.sizeMax, PgSize.size4g, entryPtr]

theorem down_entryPtr (v : Word) (hs : s < 7) : down (entryPtr v (s + 1)) s v = entryPtr v s := by
  interval_cases s
  all_goals
    simp [down, entryPtr, PgPtr.subtree, PgPtr.next, PgPtr.stride, PgSize.size4g, PgSize.size4m]

theorem pageTableIndex_lt (r : Nat) (v : Word) : pageTableIndex r v < pageTableSize r :=
  Nat.mod_lt _ (Nat.two_pow_pos _)

theorem pageShift_succ (hs : s ≤ 7) :
    pageShift s ≤ pageShift (s + 1) ∧ pageShift (s + 1) ≤ 41 := by
  interval_cases s <;> exact ⟨by decide, by decide⟩

theorem two_pow_pageShift_succ (hs : s ≤ 7) :
    2 ^ pageShift (s + 1) = 2 ^ pageShift s * pageTableSize s := by
  rw [pageTableSize, ← Nat.pow_add, Nat.add_sub_cancel' (pageShift_succ hs).1]

/-- Higher bits of an address do not matter for the table index. -/
theorem pageTableIndex_eq_mod (hs : s ≤ 7) (v : Word) :
    pageTableIndex s v = v.toNat % 2 ^ 41 / 2 ^ pageShift s % pageTableSize s := by
  obtain ⟨m, hm⟩ : 2 ^ pageShift (s + 1) ∣ 2 ^ 41 := Nat.pow_dvd_pow 2 (pageShift_succ hs).2
  rw [pageTableIndex, hm, two_pow_pageShift_succ hs, Nat.mul_assoc, Nat.mod_mul_right_div_self,
    Nat.mod_mul_right_mod]

/-- A page is the part of the next larger one that its table index selects. -/
theorem samePage_iff (hs : s < 7) :
    SamePage s a v ↔ SamePage (s + 1) a v ∧ pageTableIndex s v = pageTableIndex s a := by
  rw [pageTableIndex_eq_mod hs.le, pageTableIndex_eq_mod hs.le, SamePage, SamePage,
    two_pow_pageShift_succ hs.le, ← Nat.div_div_eq_div_mul, ← Nat.div_div_eq_div_mul]
  constructor
  · intro h
    rw [h]
    exact ⟨rfl, rfl⟩
  · rintro ⟨hdiv, hmod⟩
    rw [← Nat.div_add_mod (v.toNat % 2 ^ 41 / 2 ^ pageShift s) (pageTableSize s), hdiv, hmod,
      Nat.div_add_mod]

theorem samePage_max_iff : SamePage 7 a v ↔ pageTableIndex 7 v = pageTableIndex 7 a := by
  simp only [SamePage, pageTableIndex, pageTableSize, pageShift, hwPgshifts, List.getD_cons_zero,
    List.getD_cons_succ]
  omega

theorem SamePage.mono (h : SamePage s a v) (hr : s ≤ r) (hr7 : r ≤ 7) : SamePage r a v := by
  obtain ⟨k, rfl⟩ := Nat.exists_eq_add_of_le hr
  induction k with
  | zero => exact h
  | succ k ih => exact ((samePage_iff (by omega)).mp (ih (by omega) (by omega))).1

/-- Addresses of one page share the table indices of its size and of larger ones. -/
theorem SamePage.index_eq (h : SamePage s a v) (hr : s ≤ r) (hr7 : r ≤ 7) :
    pageTableIndex r v = pageTableIndex r a := by
  have hrr := h.mono hr hr7
  rcases Nat.lt_or_eq_of_le hr7 with hlt | rfl
  · exact ((samePage_iff hlt).mp hrr).2
  · exact samePage_max_iff.mp hrr

theorem samePage_of_index_eq (hs : s ≤ 7)
    (h : ∀ r, s ≤ r → r ≤ 7 → pageTableIndex r v = pageTableIndex r a) : SamePage s a v := by
  obtain ⟨k, hk⟩ := Nat.exists_eq_add_of_le hs
  induction k generalizing s with
  | zero =>
    obtain rfl : s = 7 := by omega
    exact samePage_max_iff.mpr (h 7 le_rfl le_rfl)
  | succ k ih =>
    refine (samePage_iff (by omega)).mpr ⟨?_, h s le_rfl hs⟩
    exact ih (by omega) (fun r hr => h r (by omega)) (by omega)

/-- Addresses of one page share the entries of its size and of larger ones. -/
theorem entryPtr_congr (h : SamePage s a v) (hr : s ≤ r) (hr7 : r ≤ 7) :
    entryPtr v r = entryPtr a r := by
  have hidx : ∀ k, r ≤ k → k ≤ 7 → pageTableIndex k v = pageTableIndex k a :=
    fun k hk hk7 => h.index_eq (hr.trans hk) hk7
  interval_cases r
  all_goals simp only [entryPtr, hidx, Nat.le_refl, Nat.reduceLeDiff]

/-- The table index of a size is added to the address for the next larger one. -/
theorem pageAddress_succ (hs : s < 7) : (entryPtr v s).pageAddress =
    (entryPtr v (s + 1)).pageAddress + pageTableIndex s v * 2 ^ pageShift s := by
  interval_cases s
  all_goals
    simp only [entryPtr, PgPtr.pageAddress, pageShift, hwPgshifts, List.getD_cons_zero,
      List.getD_cons_succ]
    omega

theorem pageAddress_entryPtr (hs : s ≤ 7) : (entryPtr v s).pageAddress =
    v.toNat % 2 ^ 41 / 2 ^ pageShift s * 2 ^ pageShift s := by
  obtain ⟨k, hk⟩ := Nat.exists_eq_add_of_le hs
  induction k generalizing s with
  | zero =>
    obtain rfl : s = 7 := by omega
    simp only [entryPtr, PgPtr.pageAddress, pageTableIndex, pageTableSize, pageShift, hwPgshifts,
      List.getD_cons_zero, List.getD_cons_succ]
    omega
  | succ k ih =>
    have hlt : s < 7 := by omega
    rw [pageAddress_succ hlt, ih hlt (by omega), pageTableIndex_eq_mod hs,
      two_pow_pageShift_succ hs, ← Nat.div_div_eq_div_mul, Nat.mul_comm (2 ^ pageShift s),
      ← Nat.mul_assoc, ← Nat.add_mul, Nat.div_add_mod']

/-- An entry that walks for two addresses read at sizes `r ≤ s` is the entry of a page of both. -/
theorem samePage_of_entryPtr_eq (h : entryPtr v r = entryPtr a s) (hr : r ≤ s) (hs : s ≤ 7) :
    SamePage s a v := by
  have haddr := congrArg PgPtr.pageAddress h
  have hmono : pageShift r ≤ pageShift s := by
    interval_cases s <;> interval_cases r <;> decide
  have hpos := Nat.two_pow_pos (pageShift r)
  rw [pageAddress_entryPtr (hr.trans hs), pageAddress_entryPtr hs] at haddr
  -- the number of the larger page is that of the smaller one without its low bits
  have hdiv : v.toNat % 2 ^ 41 / 2 ^ pageShift s =
      v.toNat % 2 ^ 41 / 2 ^ pageShift r * 2 ^ pageShift r / 2 ^ pageShift s := by
    rw [← Nat.add_sub_cancel' hmono, Nat.pow_add, ← Nat.div_div_eq_div_mul,
      ← Nat.div_div_eq_div_mul, Nat.mul_div_cancel _ hpos]
  rw [SamePage, hdiv, haddr, Nat.mul_div_cancel _ (Nat.two_pow_pos _)]

/-- The table of smaller pages below an entry is that of an address of its page. -/
theorem samePage_of_table_eq {k : Nat} (h : (entryPtr v k).table = ((entryPtr a s).subtree s).table)
    (hs : s = 5 ∨ s = 7) (hk : k ≤ 7) : SamePage s a v := by
  rcases hs with rfl | rfl
  · refine samePage_of_entryPtr_eq ?_ le_rfl (by decide)
    interval_cases k
    all_goals
      simp only [entryPtr, PgPtr.subtree, PgSize.size4m, if_true, Table.leaf.injEq,
        reduceCtorEq] at h
    all_goals simp only [entryPtr, h.1, h.2]
  · rw [samePage_max_iff]
    interval_cases k
    all_goals
      simp only [entryPtr, PgPtr.subtree, PgSize.size4g, if_true, Table.dir.injEq,
        reduceCtorEq] at h
    all_goals exact h

/-! ## Translations -/

/-- What a walk for `v` finds: the entry, its size and its contents. -/
def view (pt : PageTable) (v : Word) : Option (PgPtr × Nat × Pgent) :=
  (pt.lookupMapping v).map fun r => (r.1, r.2, pt.get r.1)

/-- The walk for `a` goes down to its entry of size `s`. -/
def Walks (pt : PageTable) (a : Word) (s : Nat) : Prop :=
  ∀ r, s < r → r ≤ 7 → (pt.get (entryPtr a r)).Split r

/-- What a walk finds is an entry for the address, of the size or a smaller one. -/
theorem lookupFrom_some (hr : r ≤ 7) (h : pt.lookupFrom v r (entryPtr v r) = some (p, s)) :
    p = entryPtr v s ∧ s ≤ r := by
  induction r with
  | zero =>
    rw [lookupFrom] at h
    split at h
    · cases h
      exact ⟨rfl, le_rfl⟩
    · cases h
  | succ r ih =>
    rw [lookupFrom, down_entryPtr v hr] at h
    split at h
    · split at h
      · obtain ⟨hp, hs⟩ := ih (by omega) h
        exact ⟨hp, Nat.le_succ_of_le hs⟩
      · cases h
        exact ⟨rfl, le_rfl⟩
    · cases h

/-- Walks that read the same entries, or go down at both, have the same result. -/
theorem lookupFrom_congr (hr : r ≤ 7)
    (h : ∀ k ≤ r, pt'.get (entryPtr v k) = pt.get (entryPtr v k) ∨
      (pt'.get (entryPtr v k)).Split k ∧ (pt.get (entryPtr v k)).Split k) :
    (pt'.lookupFrom v r (entryPtr v r)).map (fun r => (r.1, r.2, pt'.get r.1)) =
      (pt.lookupFrom v r (entryPtr v r)).map fun r => (r.1, r.2, pt.get r.1) := by
  induction r with
  | zero =>
    rcases h 0 le_rfl with heq | ⟨⟨-, hsub'⟩, ⟨-, hsub⟩⟩
    · simp only [lookupFrom, heq]
      split <;> simp [heq]
    · simp [lookupFrom, hsub, hsub']
  | succ r ih =>
    have hdown := ih (by omega) fun k hk => h k (by omega)
    rw [lookupFrom, lookupFrom, down_entryPtr v (by omega)]
    rcases h (r + 1) le_rfl with heq | ⟨⟨hval', hsub'⟩, ⟨hval, hsub⟩⟩
    · rw [heq]
      split
      · split
        · exact hdown
        · simp [heq]
      · rfl
    · rw [hval', hsub', hval, hsub]
      exact hdown

theorem view_congr
    (h : ∀ k ≤ 7, pt'.get (entryPtr v k) = pt.get (entryPtr v k) ∨
      (pt'.get (entryPtr v k)).Split k ∧ (pt.get (entryPtr v k)).Split k) :
    pt'.view v = pt.view v := by
  simp only [view, lookupMapping, rootPtr_eq, PgSize.sizeMax, PgSize.size4g]
  exact lookupFrom_congr le_rfl h

theorem lookupFrom_of_walks (hw : pt.Walks v s) (hr : s ≤ r) (hr7 : r ≤ 7) :
    pt.lookupFrom v r (entryPtr v r) = pt.lookupFrom v s (entryPtr v s) := by
  obtain ⟨k, rfl⟩ := Nat.exists_eq_add_of_le hr
  induction k with
  | zero => rfl
  | succ k ih =>
    obtain ⟨hval, hsub⟩ := hw (s + (k + 1)) (by omega) hr7
    rw [← Nat.add_assoc] at hval hsub ⊢
    rw [lookupFrom, hval, hsub, down_entryPtr v (show s + k < 7 by omega)]
    exact ih (by omega) (by omega)

/-- A walk that goes down to an invalid entry finds nothing. -/
theorem view_eq_none (hw : pt.Walks v s) (hs : s ≤ 7)
    (hinv : (pt.get (entryPtr v s)).valid s = false) : pt.view v = none := by
  have hnone : pt.lookupFrom v s (entryPtr v s) = none := by
    cases s with
    | zero => simp [lookupFrom, hinv]
    | succ s => simp [lookupFrom, hinv]
  simp only [view, lookupMapping, rootPtr_eq, PgSize.sizeMax, PgSize.size4g]
  rw [lookupFrom_of_walks hw hs le_rfl, hnone]
  rfl

end PageTable

/-! ## Operations -/

/-- The operations of the page table walkers on an entry. -/
inductive PgOp
  | clear (kernel : Bool)
  | makeSubtree (ptab : BitVec 56)
  | removeSubtree
  | setEntry (paddr : Word) (readable writable kernel : Bool) (attrib : BitVec 3)

namespace PgOp

open PageTable

variable {op : PgOp} {pt : PageTable} {a v : Word} {s r : Nat} {p q : PgPtr}

def apply (op : PgOp) (pt : PageTable) (p : PgPtr) (s : Nat) : PageTable :=
  match op with
  | clear kernel => pt.clear p s kernel
  | makeSubtree ptab => pt.makeSubtree p s ptab
  | removeSubtree => pt.removeSubtree p s
  | setEntry paddr readable writable kernel attrib =>
    pt.setEntry p s paddr readable writable kernel attrib

/-- The walkers split and join groups only. -/
def Applies (op : PgOp) (s : Nat) : Prop :=
  match op with
  | makeSubtree _ | removeSubtree => 1 ≤ s ∧ s ≤ 7
  | clear _ | setEntry _ _ _ _ _ => s ≤ 7

instance (op : PgOp) (s : Nat) : Decidable (op.Applies s) := by
  cases op <;> unfold Applies <;> infer_instance

/-- What the operation makes of the entry. -/
def entry (op : PgOp) (e : Pgent) (s : Nat) : Pgent :=
  match op with
  | clear _ =>
    if s = PgSize.size4m ∨ s = PgSize.size4g then .zero else { e with isValid := false, isSubtree := true }
  | makeSubtree ptab =>
    let e := { e with isValid := false, isSubtree := true, pgsize := BitVec.ofNat 4 s - 1 }
    if s = PgSize.size4m ∨ s = PgSize.size4g then { e with low := ptab } else e
  | removeSubtree =>
    if s = PgSize.size4m ∨ s = PgSize.size4g then .zero
    else { e with isValid := false, isSubtree := true, pgsize := BitVec.ofNat 4 s + 1 }
  | setEntry paddr readable writable kernel attrib =>
    .mapping s paddr readable writable kernel attrib

@[simp] theorem get_set_self {e : Pgent} : (pt.set p e).get p = e := by
  simp [PageTable.set, PageTable.get]

theorem get_set_of_ne {e : Pgent} (h : q ≠ p) : (pt.set p e).get q = pt.get q := by
  obtain ⟨t, i⟩ := p
  obtain ⟨u, j⟩ := q
  simp only [PageTable.set, PageTable.get]
  rcases eq_or_ne u t with rfl | ht
  · have hij : j ≠ i := fun hij => h (by rw [hij])
    simp [hij]
  · simp [ht]

@[simp] theorem get_setLink {w : Word} : (pt.setLink p w).get q = pt.get q := rfl

theorem get_zeroTable_of_ne {t : Table} (h : q.table ≠ t) : (pt.zeroTable t).get q = pt.get q := by
  simp [PageTable.zeroTable, PageTable.get, h]

/-- The table below an entry is another one than that of the entry. -/
theorem table_ne_subtree (hs : s = 5 ∨ s = 7) :
    (entryPtr a s).table ≠ ((entryPtr a s).subtree s).table := by
  rcases hs with rfl | rfl <;> simp [entryPtr, PgPtr.subtree, PgSize.size4m, PgSize.size4g]

theorem get_apply_self : (op.apply pt (entryPtr a s) s).get (entryPtr a s) =
    op.entry (pt.get (entryPtr a s)) s := by
  cases op with
  | clear kernel =>
    simp only [apply, PageTable.clear, entry]
    by_cases hs : s = PgSize.size4m ∨ s = PgSize.size4g <;> cases kernel <;> simp [hs]
  | makeSubtree ptab =>
    simp only [apply, PageTable.makeSubtree, entry]
    split
    · rename_i hs
      rw [get_zeroTable_of_ne (table_ne_subtree hs), get_set_self]
    · rw [get_set_self]
  | removeSubtree =>
    simp only [apply, PageTable.removeSubtree, entry]
    split <;> simp
  | setEntry => simp [apply, PageTable.setEntry, entry]

/-- The operation changes entries of the page only. -/
theorem get_apply_of_ne (hv : ¬SamePage s a v) (hr : r ≤ 7) (hne : entryPtr v r ≠ entryPtr a s) :
    (op.apply pt (entryPtr a s) s).get (entryPtr v r) = pt.get (entryPtr v r) := by
  cases op with
  | clear kernel =>
    simp only [apply, PageTable.clear]
    by_cases hs : s = PgSize.size4m ∨ s = PgSize.size4g <;> cases kernel <;> simp [hs, get_set_of_ne hne]
  | makeSubtree ptab =>
    simp only [apply, PageTable.makeSubtree]
    split
    · rename_i hs
      rw [get_zeroTable_of_ne fun h => hv (samePage_of_table_eq h hs hr), get_set_of_ne hne]
    · rw [get_set_of_ne hne]
  | removeSubtree =>
    simp only [apply, PageTable.removeSubtree]
    split <;> simp [get_set_of_ne hne]
  | setEntry => simp [apply, PageTable.setEntry, get_set_of_ne hne]

/-! ## Locality -/

/-- Outside the page of size `s` at `a` the translation is the same. -/
def Local (pt pt' : PageTable) (a : Word) (s : Nat) : Prop :=
  ∀ v, ¬SamePage s a v → pt'.view v = pt.view v

/-- The operation empties the whole group of the next size, if it is applied to its first entry: a
table entry is cleared with its group, and a joined subgroup takes the size of its group. -/
def Collapses (op : PgOp) (s : Nat) : Prop :=
  match op with
  | clear _ => s = PgSize.size4m
  | removeSubtree => s = PgSize.size16k ∨ s = PgSize.size64k ∨ s = PgSize.size256k ∨ s = PgSize.size4m
  | makeSubtree _ | setEntry _ _ _ _ _ => False

instance (op : PgOp) (s : Nat) : Decidable (op.Collapses s) := by
  cases op <;> unfold Collapses <;> infer_instance

/-- Sizes that share an entry are sizes of one table. -/
theorem cases_of_share (hshare : entryPtr a r = entryPtr a s) (hsr : s < r) (hr : r ≤ 7) :
    s = 5 ∧ r = 6 ∨ r ≤ 4 := by
  interval_cases r
  all_goals first | omega | skip
  all_goals
    interval_cases s
    all_goals simp [entryPtr] at hshare ⊢

theorem split_iff {e : Pgent} (hr : r = 6 ∨ r ≤ 4) :
    e.Split r ↔ (e.isValid = true ∨ e.isSubtree = true) ∧ e.pgsize.toNat < r := by
  have h7 : ¬(r = PgSize.size4g ∨ r = PgSize.size4m) := by
    simp only [PgSize.size4g, PgSize.size4m]
    omega
  simp only [Pgent.Split, Pgent.valid, Pgent.subtree, h7, if_false, Bool.or_eq_true,
    Bool.and_eq_true, decide_eq_true_eq]
  tauto

/-- The sizes at which the new entry still reads as split. -/
theorem split_entry {e : Pgent} (hop : op.Applies s) (hsr : s < r) (hr : r ≤ 7)
    (hshare : entryPtr a r = entryPtr a s) (he : e.Split r) (hc : op.Collapses s → r ≠ s + 1) :
    (op.entry e s).Split r := by
  have hcases := cases_of_share hshare hsr hr
  have hr' : r = 6 ∨ r ≤ 4 := by omega
  rw [split_iff hr'] at he ⊢
  cases op with
  | clear kernel =>
    have hs5 : s ≠ 5 := fun hs => hc hs (by omega)
    have hs : ¬(s = PgSize.size4m ∨ s = PgSize.size4g) := by
      simp only [PgSize.size4g, PgSize.size4m]
      omega
    simp only [entry, hs, if_false]
    exact ⟨.inr trivial, he.2⟩
  | makeSubtree ptab =>
    obtain ⟨h1, -⟩ := hop
    have hpg : (BitVec.ofNat 4 s - 1).toNat < r := by
      have : s ≤ 5 := by omega
      interval_cases s
      all_goals
        simp
        omega
    by_cases hs : s = PgSize.size4m ∨ s = PgSize.size4g
    · simp only [entry, hs, if_true]
      exact ⟨.inr trivial, hpg⟩
    · simp only [entry, hs, if_false]
      exact ⟨.inr trivial, hpg⟩
  | removeSubtree =>
    obtain ⟨h1, -⟩ := hop
    have hs5 : s ≠ 5 := fun hs => hc (.inr (.inr (.inr hs))) (by omega)
    have hs : ¬(s = PgSize.size4m ∨ s = PgSize.size4g) := by
      simp only [PgSize.size4g, PgSize.size4m]
      omega
    have hpg : (BitVec.ofNat 4 s + 1).toNat < r := by
      have hs3 : s ≤ 3 := by omega
      have hne : r ≠ s + 1 := by
        refine hc ?_
        simp only [Collapses, PgSize.size16k, PgSize.size64k, PgSize.size256k]
        omega
      interval_cases s
      all_goals
        simp
        omega
    simp only [entry, hs, if_false]
    exact ⟨.inr trivial, hpg⟩
  | setEntry paddr readable writable kernel attrib =>
    refine ⟨.inl rfl, ?_⟩
    have hlt : s < 2 ^ 4 := by omega
    simp only [entry, Pgent.mapping, BitVec.toNat_ofNat, Nat.mod_eq_of_lt hlt]
    exact hsr

/-- A collapsed entry reads as empty at the next size. -/
theorem not_valid_entry {e : Pgent} (hc : op.Collapses s) : (op.entry e s).valid (s + 1) = false := by
  cases op with
  | clear kernel =>
    obtain rfl : s = 5 := hc
    rfl
  | removeSubtree =>
    obtain rfl | rfl | rfl | rfl : s = 1 ∨ s = 2 ∨ s = 3 ∨ s = 5 := hc
    all_goals simp [entry, Pgent.valid, Pgent.zero, PgSize.size4m, PgSize.size4g]
  | makeSubtree ptab => exact absurd hc id
  | setEntry => exact absurd hc id

/-- The sizes of the groups that can collapse have an entry in common with the next size. -/
theorem entryPtr_succ_eq (hc : op.Collapses s) (h0 : pageTableIndex s a = 0) :
    s < 7 ∧ entryPtr a (s + 1) = entryPtr a s := by
  have hs : s = 1 ∨ s = 2 ∨ s = 3 ∨ s = 5 := by
    cases op with
    | clear kernel => exact .inr (.inr (.inr hc))
    | removeSubtree => exact hc
    | makeSubtree ptab => exact absurd hc id
    | setEntry => exact absurd hc id
  obtain rfl | rfl | rfl | rfl := hs
  all_goals simp [entryPtr, h0]

theorem index_eq_zero_of_share (h : entryPtr a (s + 1) = entryPtr a s) (hs : s < 7) :
    pageTableIndex s a = 0 := by
  have haddr := pageAddress_succ (v := a) hs
  rw [h, Nat.left_eq_add, Nat.mul_eq_zero] at haddr
  exact haddr.resolve_right (Nat.ne_of_gt (Nat.two_pow_pos _))

/-- An entry that is read for `v` at a size above `s` is read for `a` at that size, too. -/
theorem entryPtr_eq_of_lt (h : entryPtr v r = entryPtr a s) (hsr : s < r) (hr : r ≤ 7) :
    entryPtr a r = entryPtr a s :=
  (entryPtr_congr (samePage_of_entryPtr_eq h.symm hsr.le hr) le_rfl hr).trans h

theorem Applies.le (hop : op.Applies s) : s ≤ 7 := by
  cases op with
  | clear kernel => exact hop
  | makeSubtree ptab => exact hop.2
  | removeSubtree => exact hop.2
  | setEntry => exact hop

section Local

variable (hw : pt.Walks a s) (hop : op.Applies s)
include hw hop

theorem view_apply_eq (hv : ¬SamePage s a v)
    (hg : op.Collapses s → pageTableIndex s a = 0 → ¬SamePage (s + 1) a v) :
    (op.apply pt (entryPtr a s) s).view v = pt.view v := by
  refine view_congr fun r hr => ?_
  by_cases heq : entryPtr v r = entryPtr a s
  · -- the walk for `v` reads the entry, at a larger size
    right
    have hsr : s < r := by
      by_contra hle
      exact hv (samePage_of_entryPtr_eq heq (by omega) hop.le)
    have hshare : entryPtr a r = entryPtr a s := entryPtr_eq_of_lt heq hsr hr
    have hold : (pt.get (entryPtr a s)).Split r := by
      rw [← hshare]
      exact hw r hsr hr
    rw [heq, get_apply_self]
    refine ⟨split_entry hop hsr hr hshare hold ?_, hold⟩
    rintro hc rfl
    refine hg hc (index_eq_zero_of_share hshare (by omega)) ?_
    exact samePage_of_entryPtr_eq (heq.trans hshare.symm) le_rfl hr
  · exact .inl (get_apply_of_ne hv hr heq)

/-- A collapsed group translates nothing. -/
theorem view_apply_none (hc : op.Collapses s) (h0 : pageTableIndex s a = 0) (hv : ¬SamePage s a v)
    (hg : SamePage (s + 1) a v) : (op.apply pt (entryPtr a s) s).view v = none := by
  obtain ⟨hs, hshare⟩ := entryPtr_succ_eq hc h0
  have hsame : ∀ r, s + 1 ≤ r → r ≤ 7 → entryPtr v r = entryPtr a r :=
    fun r hr hr7 => entryPtr_congr hg hr hr7
  refine view_eq_none (s := s + 1) (fun r hr hr7 => ?_) (by omega) ?_
  · have hold := hw r (by omega) hr7
    by_cases heq : entryPtr v r = entryPtr a s
    · have hshare' : entryPtr a r = entryPtr a s := (hsame r (by omega) hr7).symm.trans heq
      rw [heq, get_apply_self]
      refine split_entry hop (by omega) hr7 hshare' ?_ fun _ => by omega
      rwa [← hshare']
    · rw [get_apply_of_ne hv hr7 heq, hsame r (by omega) hr7]
      exact hold
  · rw [hsame (s + 1) le_rfl (by omega), hshare, get_apply_self]
    exact not_valid_entry hc

end Local

/-- An operation is local unless it collapses a group in which other pages are mapped. -/
theorem local_apply_iff (hw : pt.Walks a s) (hop : op.Applies s) :
    Local pt (op.apply pt (entryPtr a s) s) a s ↔
      (op.Collapses s → pageTableIndex s a = 0 →
        ∀ v, SamePage (s + 1) a v → ¬SamePage s a v → pt.view v = none) := by
  constructor
  · intro hloc hc h0 v hg hv
    rw [← hloc v hv]
    exact view_apply_none hw hop hc h0 hv hg
  · intro hempty v hv
    by_cases hcol : op.Collapses s ∧ pageTableIndex s a = 0 ∧ SamePage (s + 1) a v
    · obtain ⟨hc, h0, hg⟩ := hcol
      rw [view_apply_none hw hop hc h0 hv hg, hempty hc h0 v hg hv]
    · exact view_apply_eq hw hop hv fun hc h0 hg => hcol ⟨hc, h0, hg⟩

/-- Two pages of 16 KB in a split group of 64 KB, the first of which is split, too. -/
def sampleTable : PageTable :=
  let split := fun (pt : PageTable) s => (makeSubtree 0).apply pt (entryPtr 0 s) s
  let pt := [7, 6, 5, 4, 3, 2, 1].foldl split .zero
  (setEntry 0x4000 true true false 3).apply pt (entryPtr 0x4000 1) 1

theorem walks_sampleTable {s : Nat} (hs : 1 ≤ s) : sampleTable.Walks 0 s := by
  intro r hr hr7
  have hsplit : ∀ r, 2 ≤ r → r ≤ 7 → (sampleTable.get (entryPtr 0 r)).valid r = true ∧
      (sampleTable.get (entryPtr 0 r)).subtree r = true := by
    decide +kernel
  exact hsplit r (by omega) hr7

/-- The first page of 16 KB is mapped. -/
theorem exists_local_apply :
    ∃ op : PgOp, sampleTable.Walks 0 1 ∧ op.Applies 1 ∧
      Local sampleTable (op.apply sampleTable (entryPtr 0 1) 1) 0 1 :=
  ⟨.setEntry 0 true false false 3, walks_sampleTable le_rfl, by decide,
    (local_apply_iff (walks_sampleTable le_rfl) (by decide)).mpr fun hc => absurd hc id⟩

/-- The first 16 KB are joined, and the second page is lost. -/
theorem exists_not_local_apply :
    ∃ op : PgOp, sampleTable.Walks 0 1 ∧ op.Applies 1 ∧
      ¬Local sampleTable (op.apply sampleTable (entryPtr 0 1) 1) 0 1 := by
  refine ⟨.removeSubtree, walks_sampleTable le_rfl, by decide, fun hloc => ?_⟩
  have hview := hloc 0x4000 (by decide)
  revert hview
  decide +kernel

end PgOp

end L4Thread
