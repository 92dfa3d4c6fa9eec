import L4Thread.Kernel.AddMapping
import L4Thread.Theory.Readmem

/-!
# What the kernel's own mappings amount to

A page table that is only added to is an assignment of pages to addresses: an addition replaces the
page it is for, unless a larger one is there, and nothing else. The code finds its way by entries
that stand for groups of pages of several sizes at once; it is right because a group that reads as
empty has nothing inside.
-/

namespace L4Thread

/-! ## The abstract side -/

/-- The pages of a space: the size of the page at an address and its entry. -/
abbrev Pages := Word → Option (Nat × Pgent)

namespace Addition

/-- The new page. -/
def page (m : Addition) : Nat × Pgent :=
  (m.size, .mapping m.size m.paddr true m.writable m.kernel Pgent.l4default)

end Addition

namespace Pages

/-- The page at an address is larger. -/
def Larger (f : Pages) (size : Nat) (vaddr : Word) : Prop := ∃ x ∈ f vaddr, size < x.1

instance (f : Pages) (size : Nat) (vaddr : Word) : Decidable (f.Larger size vaddr) :=
  inferInstanceAs (Decidable (∃ x ∈ f vaddr, size < x.1))

/-- The page is put in its place. -/
def put (f : Pages) (m : Addition) : Pages := fun v =>
  if PageTable.SamePage m.size m.vaddr v then some m.page else f v

/-- A page is added, of a size that there is, where there is no larger one. -/
def add (f : Pages) (m : Addition) : Pages :=
  if isPageSizeValid m.size = true ∧ ¬f.Larger m.size m.vaddr then f.put m else f

end Pages

/-! ## Entries -/

namespace Pgent

variable {s : Nat} {paddr : Word} {readable writable kernel : Bool} {attrib : BitVec 3}

theorem valid_mapping {r : Nat} :
    (mapping s paddr readable writable kernel attrib).valid r = true := rfl

/-- The frame number of a new mapping. -/
theorem extractLsb'_mapping :
    (mapping s paddr readable writable kernel attrib).low.extractLsb' 6 24 =
      (paddr >>> 12).setWidth 24 := by
  apply BitVec.eq_of_getLsbD_eq
  intro i hi
  have hattrib : attrib.getLsbD (6 + i - 3) = false := BitVec.getLsbD_of_ge _ _ (by omega)
  have hbit : ¬6 + i - 2 = 0 := by omega
  have h56 : 6 + i < 56 := by omega
  simp [mapping, hi, hattrib, hbit, h56]

theorem toNat_physAddr_mapping :
    (mapping s paddr readable writable kernel attrib).physAddr.toNat =
      paddr.toNat % 2 ^ 36 / 2 ^ 12 * 2 ^ 12 := by
  rw [physAddr, extractLsb'_mapping, BitVec.toNat_shiftLeft, BitVec.toNat_setWidth,
    BitVec.toNat_setWidth, BitVec.toNat_ushiftRight, Nat.shiftRight_eq_div_pow, Nat.shiftLeft_eq]
  omega

end Pgent

/-! ## Groups -/

namespace PageTable

open PgOp

variable {pt pt' : PageTable} {a v : Word} {s r : Nat} {p q : PgPtr} {e : Pgent} {m : Addition}
  {ptab : PgPtr → BitVec 56}

/-- A group that reads as empty has only empty entries. -/
def Tidy (pt : PageTable) : Prop :=
  ∀ v r, r < 6 → r ≠ 4 → (pt.get (entryPtr v (r + 1))).valid (r + 1) = false →
    (pt.get (entryPtr v r)).valid r = false

theorem valid_zero : Pgent.zero.valid s = false := rfl

/-- A group that is split reads as one from its size on. -/
theorem valid_split_entry {x : BitVec 56} (h1 : 1 ≤ s) (hs : s ≤ 7) :
    ((PgOp.makeSubtree x).entry e s).valid r = decide (s ≤ r) := by
  have hpg : (BitVec.ofNat 4 s - 1).toNat = s - 1 := by
    interval_cases s <;> rfl
  have hiff : s - 1 < r ↔ s ≤ r := by omega
  simp only [entry]
  split
  · simp only [Pgent.valid, hpg, hiff, Bool.false_or, Bool.true_and]
  · simp only [Pgent.valid, hpg, hiff, Bool.false_or, Bool.true_and]

/-- What is invalid at a size is invalid at smaller ones. -/
theorem not_valid_mono (h : e.valid s = false) (hr : r ≤ s) : e.valid r = false := by
  simp only [Pgent.valid, Bool.or_eq_false_iff, Bool.and_eq_false_iff, decide_eq_false_iff_not] at h ⊢
  exact ⟨h.1, h.2.imp_right (by omega)⟩

/-- The sizes of a group and of its entries are sizes of one table. -/
theorem table_entryPtr (v : Word) (hr : r < 6) (hr4 : r ≠ 4) :
    (entryPtr v (r + 1)).table = (entryPtr v r).table := by
  interval_cases r
  all_goals first | rfl | omega

/-- The bounds of the table indices. -/
theorem pageTableIndex_bounds (v : Word) :
    pageTableIndex 0 v < 4 ∧ pageTableIndex 1 v < 4 ∧ pageTableIndex 2 v < 4 ∧
      pageTableIndex 3 v < 4 ∧ pageTableIndex 4 v < 4 ∧ pageTableIndex 5 v < 4 ∧
      pageTableIndex 6 v < 256 :=
  ⟨pageTableIndex_lt 0 v, pageTableIndex_lt 1 v, pageTableIndex_lt 2 v, pageTableIndex_lt 3 v,
    pageTableIndex_lt 4 v, pageTableIndex_lt 5 v, pageTableIndex_lt 6 v⟩

/-- An entry that is read for a smaller page is read for every group between. -/
theorem entryPtr_succ_of_eq (h : entryPtr v r = entryPtr a s) (hrs : r < s) (hs : s ≤ 7) :
    entryPtr v (r + 1) = entryPtr a s := by
  have hv := pageTableIndex_bounds v
  have ha := pageTableIndex_bounds a
  interval_cases s
  all_goals
    interval_cases r
    all_goals
      simp only [entryPtr, PgPtr.mk.injEq, Table.dir.injEq, Table.leaf.injEq,
        reduceCtorEq, false_and] at h ⊢
  all_goals omega

theorem tidy_zero : Tidy zero := fun _ _ _ _ _ => rfl

/-! ## One operation -/

/-- What splitting an entry makes of another one. -/
theorem get_makeSubtree_of_ne {x : BitVec 56} (hne : q ≠ p) :
    (pt.makeSubtree p s x).get q =
      if (s = 5 ∨ s = 7) ∧ q.table = (p.subtree s).table then .zero else pt.get q := by
  rw [PageTable.makeSubtree]
  split
  · next hs =>
    split
    · next htab => simp [PageTable.get, PageTable.zeroTable, htab.2]
    · next htab => rw [get_zeroTable_of_ne fun h => htab ⟨hs, h⟩, get_set_of_ne hne]
  · next hs =>
    rw [if_neg fun h => hs h.1, get_set_of_ne hne]

theorem get_makeSubtree_self {x : BitVec 56} :
    (pt.makeSubtree (entryPtr a s) s x).get (entryPtr a s) =
      (PgOp.makeSubtree x).entry (pt.get (entryPtr a s)) s := by
  change ((PgOp.makeSubtree x).apply pt (entryPtr a s) s).get _ = _
  exact get_apply_self

/-- The entry of a larger group that shares an entry with the place of a walk is valid. -/
theorem Walks.valid_above (hw : pt.Walks a s) (h : entryPtr v r = entryPtr a s) (hsr : s ≤ r)
    (hr : r < 7) : (pt.get (entryPtr v (r + 1))).valid (r + 1) = true ∧
      entryPtr v (r + 1) = entryPtr a (r + 1) := by
  have hpage : SamePage r v a := samePage_of_entryPtr_eq h.symm hsr (by omega)
  have heq : entryPtr a (r + 1) = entryPtr v (r + 1) := entryPtr_congr hpage (by omega) hr
  rw [← heq]
  exact ⟨(hw (r + 1) (by omega) hr).1, rfl⟩

/-- Splitting an empty group keeps the groups tidy. -/
theorem Tidy.makeSubtree {x : BitVec 56} (ht : pt.Tidy) (hw : pt.Walks a s) (h1 : 1 ≤ s)
    (hs : s ≤ 7) (hinv : (pt.get (entryPtr a s)).valid s = false) :
    (pt.makeSubtree (entryPtr a s) s x).Tidy := by
  intro v r hr hr4 hgroup
  have htab := table_entryPtr v hr hr4
  by_cases hself : entryPtr v r = entryPtr a s
  · rw [hself, get_makeSubtree_self, valid_split_entry h1 hs, decide_eq_false_iff_not]
    intro hsr
    by_cases hup : entryPtr v (r + 1) = entryPtr a s
    · rw [hup, get_makeSubtree_self, valid_split_entry h1 hs, decide_eq_false_iff_not] at hgroup
      omega
    · rw [get_makeSubtree_of_ne hup, if_neg fun h => ?_,
        (hw.valid_above hself hsr (by omega)).1] at hgroup
      · cases hgroup
      · rw [htab, hself] at h
        exact table_ne_subtree h.1 h.2
  · rw [get_makeSubtree_of_ne hself]
    split
    · rfl
    · next hold =>
      refine ht v r hr hr4 ?_
      by_cases hup : entryPtr v (r + 1) = entryPtr a s
      · rw [hup, get_makeSubtree_self, valid_split_entry h1 hs, decide_eq_false_iff_not] at hgroup
        rw [hup]
        exact not_valid_mono hinv (by omega)
      · rw [← htab] at hold
        rwa [get_makeSubtree_of_ne hup, if_neg hold] at hgroup

/-- So does an entry of its own, at any place. -/
theorem Tidy.setEntry {paddr : Word} {readable writable kernel : Bool} {attrib : BitVec 3}
    (ht : pt.Tidy) (hw : pt.Walks a s) (hs : s ≤ 7) :
    (pt.setEntry (entryPtr a s) s paddr readable writable kernel attrib).Tidy := by
  intro v r hr hr4 hgroup
  rw [PageTable.setEntry] at hgroup ⊢
  by_cases hup : entryPtr v (r + 1) = entryPtr a s
  · rw [hup, get_set_self, Pgent.valid_mapping] at hgroup
    cases hgroup
  · rw [get_set_of_ne hup] at hgroup
    have hself : entryPtr v r ≠ entryPtr a s := by
      intro hself
      rcases Nat.lt_or_ge r s with hrs | hsr
      · exact hup (entryPtr_succ_of_eq hself hrs hs)
      · rw [(hw.valid_above hself hsr (by omega)).1] at hgroup
        cases hgroup
    rw [get_set_of_ne hself]
    exact ht v r hr hr4 hgroup

/-! ## Translations -/

theorem view_eq : pt.view v = (pt.lookupFrom v 7 (entryPtr v 7)).map fun x => (x.1, x.2, pt.get x.1) := by
  rw [view, lookupMapping, rootPtr_eq]
  rfl

/-- A walk that ends at a mapping finds it. -/
theorem view_eq_some (hw : pt.Walks v s) (hs : s ≤ 7)
    (hval : (pt.get (entryPtr v s)).valid s = true)
    (hsub : (pt.get (entryPtr v s)).subtree s = false) :
    pt.view v = some (entryPtr v s, s, pt.get (entryPtr v s)) := by
  have hsome : pt.lookupFrom v s (entryPtr v s) = some (entryPtr v s, s) := by
    cases s with
    | zero => simp [lookupFrom, hval, hsub]
    | succ s => simp [lookupFrom, hval, hsub]
  rw [view_eq, lookupFrom_of_walks hw hs le_rfl, hsome]
  rfl

/-- Addresses of one page have the same walk down to it. -/
theorem Walks.congr (hw : pt.Walks a s) (h : SamePage s a v) : pt.Walks v s := by
  intro r hsr hr
  rw [entryPtr_congr h hsr.le hr]
  exact hw r hsr hr

/-- The tables of larger pages are not below an entry. -/
theorem table_ne_of_lt (hsr : s < r) (hr : r ≤ 7) (hs : s = 5 ∨ s = 7) :
    (entryPtr a r).table ≠ ((entryPtr a s).subtree s).table := by
  obtain rfl : s = 5 := by omega
  interval_cases r
  all_goals simp [entryPtr, PgPtr.subtree, PgSize.size4m]

/-- Splitting an entry leaves the walk to it. -/
theorem Walks.makeSubtree {x : BitVec 56} (hw : pt.Walks a s) (h1 : 1 ≤ s) (hs : s ≤ 7) :
    (pt.makeSubtree (entryPtr a s) s x).Walks a s := by
  intro r hsr hr
  have hold := hw r hsr hr
  by_cases heq : entryPtr a r = entryPtr a s
  · rw [heq] at hold ⊢
    rw [get_makeSubtree_self]
    have hop : (PgOp.makeSubtree x).Applies s := ⟨h1, hs⟩
    exact split_entry hop hsr hr heq hold fun h => absurd h id
  · rw [get_makeSubtree_of_ne heq, if_neg fun h => table_ne_of_lt hsr hr h.1 h.2]
    exact hold

theorem Walks.setEntry {paddr : Word} {readable writable kernel : Bool} {attrib : BitVec 3}
    (hw : pt.Walks a s) (hs : s ≤ 7) :
    (pt.setEntry (entryPtr a s) s paddr readable writable kernel attrib).Walks a s := by
  intro r hsr hr
  have hold := hw r hsr hr
  rw [PageTable.setEntry]
  by_cases heq : entryPtr a r = entryPtr a s
  · rw [heq] at hold ⊢
    rw [get_set_self]
    have hop : (PgOp.setEntry paddr readable writable kernel attrib).Applies s := hs
    exact split_entry hop hsr hr heq hold fun h => absurd h id
  · rwa [get_set_of_ne heq]

/-- The entry that was split is walked through. -/
theorem Walks.split {x : BitVec 56} (hw : pt.Walks a (s + 1)) (hs : s < 7) :
    (pt.makeSubtree (entryPtr a (s + 1)) (s + 1) x).Walks a s := by
  intro r hsr hr
  rcases Nat.lt_or_eq_of_le (Nat.succ_le_of_lt hsr) with hlt | rfl
  · exact hw.makeSubtree (Nat.succ_pos s) hs r hlt hr
  · rw [get_makeSubtree_self]
    refine ⟨?_, ?_⟩
    · rw [valid_split_entry (Nat.succ_pos s) hs, decide_eq_true_eq]
    · interval_cases s
      all_goals rfl

/-- The groups inside a split one are empty if it was. -/
theorem not_valid_split {x : BitVec 56} (ht : pt.Tidy) (hs : s < 7)
    (hinv : (pt.get (entryPtr a (s + 1))).valid (s + 1) = false) :
    ((pt.makeSubtree (entryPtr a (s + 1)) (s + 1) x).get (entryPtr a s)).valid s = false := by
  by_cases heq : entryPtr a s = entryPtr a (s + 1)
  · rw [heq, get_makeSubtree_self, valid_split_entry (Nat.succ_pos s) hs, decide_eq_false_iff_not]
    omega
  · rw [get_makeSubtree_of_ne heq]
    split
    · rfl
    · next hold =>
      have hsame : s < 6 ∧ s ≠ 4 := by
        rcases Nat.lt_or_eq_of_le (Nat.le_of_lt_succ hs) with hlt | rfl
        · refine ⟨hlt, ?_⟩
          rintro rfl
          exact hold ⟨.inl rfl, rfl⟩
        · exact absurd ⟨.inr rfl, rfl⟩ hold
      exact ht a s hsame.1 hsame.2 hinv

/-- Splitting an empty group translates nothing new. -/
theorem view_makeSubtree {x : BitVec 56} (ht : pt.Tidy) (hw : pt.Walks a (s + 1)) (hs : s < 7)
    (hinv : (pt.get (entryPtr a (s + 1))).valid (s + 1) = false) :
    (pt.makeSubtree (entryPtr a (s + 1)) (s + 1) x).view v = pt.view v := by
  by_cases hv : SamePage (s + 1) a v
  · have heq : entryPtr v (s + 1) = entryPtr a (s + 1) := entryPtr_congr hv le_rfl hs
    have hwv : pt.Walks v (s + 1) := hw.congr hv
    have hnone : pt.view v = none := view_eq_none hwv hs (heq ▸ hinv)
    rw [hnone, ← heq]
    refine view_eq_none (hwv.split hs) hs.le (not_valid_split ht hs ?_)
    rwa [heq]
  · have hop : (PgOp.makeSubtree x).Applies (s + 1) := ⟨Nat.succ_pos s, hs⟩
    exact view_apply_eq hw hop hv fun h => absurd h id

/-- An entry translates the addresses of its page. -/
theorem view_setEntry {paddr : Word} {readable writable kernel : Bool} {attrib : BitVec 3}
    (hw : pt.Walks a s) (hs : s ≤ 7) :
    (pt.setEntry (entryPtr a s) s paddr readable writable kernel attrib).view v =
      if SamePage s a v then
        some (entryPtr a s, s, .mapping s paddr readable writable kernel attrib)
      else pt.view v := by
  split
  · next hv =>
    have heq : entryPtr v s = entryPtr a s := entryPtr_congr hv le_rfl hs
    have hget : (pt.setEntry (entryPtr a s) s paddr readable writable kernel attrib).get
        (entryPtr v s) = .mapping s paddr readable writable kernel attrib := by
      rw [heq, PageTable.setEntry, get_set_self]
    have hsub : (Pgent.mapping s paddr readable writable kernel attrib).subtree s = false := by
      interval_cases s
      all_goals rfl
    rw [view_eq_some ((hw.setEntry hs).congr hv) hs (by rw [hget]; rfl) (by rw [hget, hsub]), hget,
      heq]
  · next hv =>
    have hop : (PgOp.setEntry paddr readable writable kernel attrib).Applies s := hs
    exact view_apply_eq hw hop hv fun h => absurd h id

/-! ## Additions -/

/-- The pages that the table holds. -/
def pages (pt : PageTable) : Pages := fun v => (pt.view v).map Prod.snd

theorem pages_congr (h : ∀ v, pt'.view v = pt.view v) : pt'.pages = pt.pages :=
  funext fun v => by rw [pages, pages, h]

/-- A walk to an entry has passed the larger pages. -/
theorem Walks.not_larger (hw : pt.Walks a s) (hs : s ≤ 7) : ¬pt.pages.Larger s a := by
  rintro ⟨x, hx, hlt⟩
  obtain ⟨y, hy, rfl⟩ := Option.map_eq_some_iff.1 hx
  rw [view_eq, lookupFrom_of_walks hw hs le_rfl] at hy
  obtain ⟨⟨q, n⟩, hq, rfl⟩ := Option.map_eq_some_iff.1 hy
  exact absurd (lookupFrom_some hs hq).2 (by simpa using hlt)

theorem pages_setEntry (hw : pt.Walks m.vaddr m.size) (hs : m.size ≤ 7) :
    (pt.setEntry (entryPtr m.vaddr m.size) m.size m.paddr true m.writable m.kernel
      Pgent.l4default).pages = pt.pages.put m := by
  funext v
  rw [pages, view_setEntry hw hs, Pages.put]
  split
  · rfl
  · rfl

/-- The loop finds the place of the page or a larger page, from the entry of any size that it
has come to. -/
theorem addMappingFrom_spec (ptab : PgPtr → BitVec 56) (ht : pt.Tidy)
    (hw : pt.Walks m.vaddr r) (hr : r ≤ 7) (hsize : m.size ≤ r) :
    (pt.addMappingFrom ptab m r (entryPtr m.vaddr r)).Tidy ∧
      (pt.addMappingFrom ptab m r (entryPtr m.vaddr r)).pages =
        if pt.pages.Larger m.size m.vaddr then pt.pages else pt.pages.put m := by
  induction r generalizing pt with
  | zero =>
    obtain hzero : m.size = 0 := by omega
    rw [addMappingFrom, ← hzero]
    rw [← hzero] at hw
    exact ⟨ht.setEntry hw (by omega),
      (pages_setEntry hw (by omega)).trans (if_neg (hw.not_larger (by omega))).symm⟩
  | succ r ih =>
    rw [addMappingFrom, down_entryPtr m.vaddr hr]
    split
    · next hlt =>
      split
      · next hval =>
        split
        · next hsub =>
          -- a larger page
          rw [Bool.not_eq_true'] at hsub
          have hview : pt.pages m.vaddr = some (r + 1, pt.get (entryPtr m.vaddr (r + 1))) := by
            rw [pages, view_eq_some hw hr hval hsub]
            rfl
          exact ⟨ht, (if_pos ⟨_, hview, hlt⟩).symm⟩
        · next hsub =>
          rw [Bool.not_eq_true', Bool.not_eq_false] at hsub
          refine ih ht (fun k hk hk7 => ?_) (by omega) (by omega)
          rcases Nat.lt_or_eq_of_le (Nat.succ_le_of_lt hk) with hlt' | rfl
          · exact hw k hlt' hk7
          · exact ⟨hval, hsub⟩
      · next hval =>
        rw [Bool.not_eq_true] at hval
        have hpages : (pt.makeSubtree (entryPtr m.vaddr (r + 1)) (r + 1)
            (ptab (entryPtr m.vaddr (r + 1)))).pages = pt.pages :=
          pages_congr fun v => view_makeSubtree ht hw hr hval
        rw [← hpages]
        exact ih (ht.makeSubtree hw (Nat.succ_pos r) hr hval) (hw.split hr) (by omega) (by omega)
    · next hge =>
      obtain hsucc : m.size = r + 1 := by omega
      rw [← hsucc] at hw ⊢
      exact ⟨ht.setEntry hw (by omega),
        (pages_setEntry hw (by omega)).trans (if_neg (hw.not_larger (by omega))).symm⟩

/-- The sizes that the hardware has. -/
theorem isPageSizeValid_iff : isPageSizeValid s = true ↔ s ≤ 6 := by
  rcases Nat.lt_or_ge s 9 with hs | hs
  · interval_cases s
    all_goals decide
  · refine iff_of_false ?_ (by omega)
    have hshift : pageShift s = 0 := by
      rw [pageShift, List.getD_eq_getElem?_getD, List.getElem?_eq_none hs]
      rfl
    rw [isPageSizeValid, hshift]
    decide

/-- One addition. -/
theorem addMapping_spec (ptab : PgPtr → BitVec 56) (m : Addition) (ht : pt.Tidy) :
    (pt.addMapping ptab m).Tidy ∧ (pt.addMapping ptab m).pages = pt.pages.add m := by
  rw [addMapping, Pages.add]
  split
  · next hsize =>
    have hle := isPageSizeValid_iff.1 hsize
    rw [rootPtr_eq]
    have hroot : pt.Walks m.vaddr 7 := fun k hk hk7 => absurd hk7 (by omega)
    obtain ⟨htidy, hpages⟩ := addMappingFrom_spec ptab ht hroot le_rfl (by omega)
    refine ⟨htidy, hpages.trans ?_⟩
    split
    · next hlarger => rw [if_neg fun h => h.2 hlarger]
    · next hlarger => rw [if_pos ⟨hsize, hlarger⟩]
  · next hsize =>
    exact ⟨ht, (if_neg fun h => hsize h.1).symm⟩

/-- The table after some additions. -/
def addMappings (ptab : PgPtr → BitVec 56) (ms : List Addition) (pt : PageTable) : PageTable :=
  ms.foldl (fun pt m => pt.addMapping ptab m) pt

theorem addMappings_spec (ht : pt.Tidy) (ms : List Addition) :
    (pt.addMappings ptab ms).Tidy ∧ (pt.addMappings ptab ms).pages = ms.foldl Pages.add pt.pages := by
  induction ms generalizing pt with
  | nil => exact ⟨ht, rfl⟩
  | cons m ms ih =>
    obtain ⟨htidy, hpages⟩ := addMapping_spec ptab m ht
    rw [List.foldl_cons, ← hpages]
    exact ih htidy

/-- A table that the kernel has filled holds the pages that it added. -/
theorem pages_addMappings (ms : List Addition) :
    (zero.addMappings ptab ms).pages = ms.foldl Pages.add fun _ => none :=
  (addMappings_spec tidy_zero ms).2

/-! ## Pages of the smallest size -/

/-- What the hardware finds for an address: the addition that its page is from. -/
structure Translates (pt : PageTable) (m : Addition) (v : Word) (pg : PgPtr) : Prop where
  found : pt.lookupMapping v = some (pg, m.size)
  phys : (pt.phys pg m.size v).toNat =
    m.paddr.toNat % 2 ^ 36 / 2 ^ pageShift m.size * 2 ^ pageShift m.size +
      v.toNat % 2 ^ pageShift m.size
  readable : (pt.get pg).isReadable = true
  writable : (pt.get pg).isWritable = m.writable
  kernel : (pt.get pg).rid = if m.kernel then 1 else 0

theorem translates_of_pages (hs : m.size ≤ 7) (h : pt.pages v = some m.page) :
    ∃ pg, pt.Translates m v pg := by
  have hshift := pageShift_bounds hs
  obtain ⟨⟨pg, n, e⟩, hview, heq⟩ := Option.map_eq_some_iff.1 h
  obtain ⟨rfl, rfl⟩ := Prod.mk.inj heq
  obtain ⟨⟨q, k⟩, hfound, hq⟩ := Option.map_eq_some_iff.1 hview
  obtain ⟨rfl, hk⟩ := Prod.mk.inj hq
  obtain ⟨rfl, hget⟩ := Prod.mk.inj hk
  refine ⟨q, hfound, ?_, ?_, ?_, ?_⟩
  · have hdvd : 2 ^ 12 ∣ 2 ^ pageShift m.size := pow_dvd_pow 2 hshift.1
    rw [toNat_phys hs, toNat_address hs, hget, Pgent.toNat_physAddr_mapping]
    obtain ⟨c, hc⟩ := hdvd
    rw [hc, ← Nat.div_div_eq_div_mul, Nat.mul_div_cancel _ (by decide), Nat.div_div_eq_div_mul]
  · rw [hget]
    simp [Pgent.mapping, Pgent.isReadable]
  · rw [hget]
    simp [Pgent.mapping, Pgent.isWritable]
  · rw [hget]
    rfl

/-- Additions of one size make pages of that size. -/
theorem size_of_foldl_add (ms : List Addition) (h : ∀ m ∈ ms, m.size = s) {x : Nat × Pgent}
    (hx : (ms.foldl Pages.add fun _ => none) v = some x) : x.1 = s := by
  induction ms using List.reverseRecOn with
  | nil => cases hx
  | append_singleton ms m ih =>
    have hms := ih fun m' hm' => h m' (List.mem_append_left _ hm')
    rw [List.foldl_append, List.foldl_cons, List.foldl_nil, Pages.add] at hx
    split at hx
    · rw [Pages.put] at hx
      split at hx
      · cases hx
        exact h m (by simp)
      · exact hms hx
    · exact hms hx

/-- Pages of one size replace each other: the last one for the address stays. -/
theorem foldl_add (hs : isPageSizeValid s = true) (ms : List Addition) (h : ∀ m ∈ ms, m.size = s)
    (v : Word) : (ms.foldl Pages.add fun _ => none) v =
      (ms.reverse.find? fun m => SamePage m.size m.vaddr v).map Addition.page := by
  induction ms using List.reverseRecOn with
  | nil => rfl
  | append_singleton ms m ih =>
    have hms : ∀ m' ∈ ms, m'.size = s := fun m' hm' => h m' (List.mem_append_left _ hm')
    have hsize : m.size = s := h m (by simp)
    have hlarger : ¬Pages.Larger (ms.foldl Pages.add fun _ => none) m.size m.vaddr := by
      rintro ⟨x, hx, hlt⟩
      rw [size_of_foldl_add ms hms hx, hsize] at hlt
      exact Nat.lt_irrefl s hlt
    rw [List.foldl_append, List.foldl_cons, List.foldl_nil, Pages.add,
      if_pos ⟨hsize ▸ hs, hlarger⟩, Pages.put, List.reverse_append, List.reverse_singleton,
      List.singleton_append, List.find?_cons]
    split
    · next hv => simp [hv]
    · next hv => simp [hv, ih hms]

/-- Where pages of one size are added, an address is translated by the last addition for its
page. -/
theorem translates_addMappings (ptab : PgPtr → BitVec 56) (hs : isPageSizeValid s = true)
    (ms : List Addition) (h : ∀ m ∈ ms, m.size = s) (v : Word) :
    match ms.reverse.find? fun m => SamePage m.size m.vaddr v with
    | none => (zero.addMappings ptab ms).lookupMapping v = none
    | some m => ∃ pg, (zero.addMappings ptab ms).Translates m v pg := by
  have hpages : (zero.addMappings ptab ms).pages v =
      (ms.reverse.find? fun m => SamePage m.size m.vaddr v).map Addition.page := by
    rw [pages_addMappings]
    exact foldl_add hs ms h v
  split
  · next hfind =>
    rw [hfind, Option.map_none, pages, view, Option.map_map, Option.map_eq_none_iff] at hpages
    exact hpages
  · next m hfind =>
    rw [hfind] at hpages
    have hsize := h m (List.mem_reverse.1 (List.mem_of_find?_eq_some hfind))
    refine translates_of_pages ?_ hpages
    exact (isPageSizeValid_iff.1 (hsize ▸ hs)).trans (by decide)

end PageTable

/-! ## The callers -/

/-- The mappings that the kernel makes on its own account. -/
inductive KernelMap
  | kip (area : Fpage) (page : Word)
  | sigma0 (addr : Word)
  | dummyTcb (page addr : Word)
  | tcb (page addr : Word)

namespace KernelMap

open PageTable

variable {ptab : PgPtr → BitVec 56}

def apply (ptab : PgPtr → BitVec 56) (k : KernelMap) (pt : PageTable) : PageTable :=
  match k with
  | kip area page => pt.mapKip ptab area page
  | sigma0 addr => pt.mapSigma0 ptab addr
  | dummyTcb page addr => pt.mapDummyTcb ptab page addr
  | tcb page addr => pt.allocateTcb ptab page addr

/-- The page that it is for, and what is mapped there. -/
def addition : KernelMap → Addition
  | kip area page => ⟨area.getAddress, virtToPhys page, PgSize.size4k, false, false⟩
  | sigma0 addr => ⟨addr, addr, PgSize.size4k, true, false⟩
  | dummyTcb page addr => ⟨addr, virtToPhys page, PgSize.size4k, false, true⟩
  | tcb page addr => ⟨addr, virtToPhys page, PgSize.size4k, true, true⟩

theorem apply_eq (k : KernelMap) (pt : PageTable) :
    k.apply ptab pt = pt.addMapping ptab k.addition := by
  cases k
  all_goals rfl

theorem size_addition (k : KernelMap) : k.addition.size = PgSize.size4k := by
  cases k
  all_goals rfl

/-- The table after some of them, from a new one. -/
def applyAll (ptab : PgPtr → BitVec 56) (ks : List KernelMap) : PageTable :=
  ks.foldl (fun pt k => k.apply ptab pt) .zero

theorem applyAll_eq (ks : List KernelMap) :
    applyAll ptab ks = PageTable.zero.addMappings ptab (ks.map addition) := by
  rw [applyAll, PageTable.addMappings, List.foldl_map]
  exact congrArg (fun f => ks.foldl f PageTable.zero) (funext fun pt => funext fun k => apply_eq k pt)

end KernelMap

end L4Thread
