import L4Thread.Theory.Fpage
import L4Thread.Theory.UnmapFpage

/-!
# Kernel mappings under unmap

An unmap does not clear the pages of the kernel interface page and of the UTCBs, but on its way up
it removes tables of smaller pages. The flexpage that it tests before is made with the bytes of the
page for its size, and stands for the address 0, so the table is removed with the kernel mappings in
it. Its entry stands for the larger group if it is the first one, and takes the group along.
-/

namespace L4Thread

/-- The address is one of the tables, in the area of the kernel interface page or in that of the
UTCBs. -/
def Space.InKipOrUtcbArea (sp : Space) (v : Word) : Prop :=
  v.toNat < 2 ^ 41 ∧ (v.toNat ∈ sp.kipArea.addresses ∨ v.toNat ∈ sp.utcbArea.addresses)

/-- Where an address is translated to: the entry, its size, and the physical address of the page. -/
def PageTable.translation (pt : PageTable) (v : Word) : Option (PgPtr × Nat × Word) :=
  (pt.lookupMapping v).map fun x => (x.1, x.2, (pt.get x.1).address x.2)

theorem PageTable.translation_of_view {pt pt' : PageTable} {v : Word}
    (h : pt'.view v = pt.view v) : pt'.translation v = pt.translation v := by
  have hview : ∀ t : PageTable, t.translation v =
      (t.view v).map fun x => (x.1, x.2.1, x.2.2.address x.2.1) := by
    intro t
    rw [view, Option.map_map]
    rfl
  rw [hview, hview, h]

namespace Unmapper

open PageTable

variable {μ : Type} {u : Unmapper μ} {fpage : Fpage} {pgsize lo s r : Nat} {a v w : Word}
  {R R' : Word → Prop} {pt pt' pt'' : PageTable} {q : PgPtr}

/-! ## What a flush of all rights takes -/

/-- The flexpage that is tested before a table of smaller pages is removed does not overlap the area
of the kernel interface page or that of the UTCBs. -/
def RemovesTables (sp : Space) : Prop := sp.kipArea.getAddress ≠ 0 ∧ sp.utcbArea.getAddress ≠ 0

/-- The bytes of a page are a multiple of 64, so that the size of the flexpage is 0, and its address
is 0, too. -/
theorem isMappableFpage_set {sp : Space} (hs : s ≤ 7) :
    sp.isMappableFpage (Fpage.set a (pageSizeBytes s).toNat) = true ↔ RemovesTables sp := by
  have hsize : (Fpage.set a (pageSizeBytes s).toNat).sizeField = 0 := by
    have hzero : (pageSizeBytes s).toNat % 64 = 0 := by
      interval_cases s
      all_goals decide
    have hlow : (BitVec.ofNat 64 ((pageSizeBytes s).toNat % 64 * 16)).toNat = 0 := by
      rw [hzero]
      rfl
    have hbase : (a >>> 10 <<< 10).toNat % 2 ^ 10 = 0 := by
      rw [BitVec.toNat_shiftLeft, BitVec.toNat_ushiftRight, Nat.shiftRight_eq_div_pow,
        Nat.shiftLeft_eq]
      omega
    rw [Fpage.sizeField, Fpage.set, BitVec.toNat_or, hlow, Nat.or_zero]
    omega
  have haddr : (Fpage.set a (pageSizeBytes s).toNat).getAddress = 0 := by
    refine BitVec.eq_of_toNat_eq ?_
    rw [Fpage.toNat_getAddress_eq, Fpage.lower_nil hsize]
    rfl
  have hbytes : (Fpage.set a (pageSizeBytes s).toNat).getSize = 1 := by
    rw [Fpage.getSize, hsize]
    rfl
  have hover : ∀ f : Fpage, f.isOverlapping (Fpage.set a (pageSizeBytes s).toNat) = true ↔
      f.getAddress = 0 := by
    intro f
    have hzero : f.getAddress = 0 ↔ f.lower = 0 := by
      rw [← Fpage.toNat_getAddress_eq, BitVec.toNat_eq]
      rfl
    have hupper : f.lower = 0 → f.upper % 2 ^ 64 = f.upper := fun hlower => by
      refine Nat.mod_eq_of_lt ?_
      rw [Fpage.upper, hlower, Nat.zero_add]
      exact Nat.pow_lt_pow_right (by decide) (Nat.mod_lt _ (by decide))
    have hpos := f.lower_lt_upper
    rw [Fpage.isOverlapping_eq, Fpage.lower_nil hsize, Fpage.upper_nil hsize, hzero]
    split_ifs with hlt
    · omega
    · rw [hupper (by omega)]
      omega
  have huser : Space.isUserAreaFpage (Fpage.set a (pageSizeBytes s).toNat) = true := by
    rw [Space.isUserAreaFpage, haddr, hbytes]
    decide
  rw [Space.isMappableFpage, huser, Bool.true_and, Bool.and_eq_true, Bool.not_eq_true',
    Bool.not_eq_true', ← Bool.not_eq_true, ← Bool.not_eq_true, hover, hover, RemovesTables]

/-- The table of smaller pages for the address is removed at this size. -/
def RemovesAt (u : Unmapper μ) (pt : PageTable) (s : Nat) (v : Word) : Prop :=
  (pt.get (entryPtr v s)).Split s ∧ RemovesTables u.space

/-- The mapping for the address is cleared at this size. -/
def ClearsAt (u : Unmapper μ) (pt : PageTable) (lo s : Nat) (v : Word) : Prop :=
  (pt.get (entryPtr v s)).valid s = true ∧ (pt.get (entryPtr v s)).subtree s = false ∧
    u.space.isMappable (firstAddress lo s v) = true

/-- The entry is emptied with the group of the next size that it stands for. -/
def TakesAlong (u : Unmapper μ) (pt : PageTable) (lo s : Nat) (v : Word) : Prop :=
  u.RemovesAt pt s v ∧ PgOp.removeSubtree.Collapses s ∨
    u.ClearsAt pt lo s v ∧ (PgOp.clear false).Collapses s

/-- The flush of a page of a size takes the translation of an address in it. -/
def Takes (u : Unmapper μ) (pt : PageTable) (lo : Nat) : Nat → Word → Prop
  | 0, v => u.ClearsAt pt lo 0 v
  | s + 1, v => u.ClearsAt pt lo (s + 1) v ∨ u.RemovesAt pt (s + 1) v ∨
    (pt.get (entryPtr v (s + 1))).Split (s + 1) ∧
      (Takes u pt lo s v ∨ ∃ w, w.toNat < 2 ^ 41 ∧ SamePage (s + 1) v w ∧
        entryPtr v (s + 1) = entryPtr w s ∧ u.TakesAlong pt lo s w)

theorem ClearsAt.takes (h : u.ClearsAt pt lo s v) : u.Takes pt lo s v := by
  cases s with
  | zero => exact h
  | succ s => exact .inl h

theorem RemovesAt.takes (h : u.RemovesAt pt s v) : u.Takes pt lo s v := by
  cases s with
  | zero =>
    have hsub := h.1.2
    rw [subtree_zero] at hsub
    cases hsub
  | succ s => exact .inr (.inl h)

/-- Nothing is taken from a page that is neither mapped nor split. -/
theorem not_takes (hsplit : ¬(pt.get (entryPtr v s)).Split s) (hclear : ¬u.ClearsAt pt lo s v) :
    ¬u.Takes pt lo s v := by
  cases s with
  | zero => exact hclear
  | succ s =>
    rintro (h | h | h)
    · exact hclear h
    · exact hsplit h.1
    · exact hsplit h.1

theorem removesAt_congr (h : pt'.get (entryPtr v s) = pt.get (entryPtr v s)) :
    u.RemovesAt pt' s v ↔ u.RemovesAt pt s v := by
  rw [RemovesAt, RemovesAt, h]

theorem clearsAt_congr (h : pt'.get (entryPtr v s) = pt.get (entryPtr v s)) :
    u.ClearsAt pt' lo s v ↔ u.ClearsAt pt lo s v := by
  rw [ClearsAt, ClearsAt, h]

theorem takesAlong_congr (h : pt'.get (entryPtr v s) = pt.get (entryPtr v s)) :
    u.TakesAlong pt' lo s v ↔ u.TakesAlong pt lo s v := by
  rw [TakesAlong, TakesAlong, removesAt_congr h, clearsAt_congr h]

/-- What is taken depends on the entries of the page. -/
theorem takes_congr (hs : s ≤ 7)
    (h : ∀ w k, k ≤ s → SamePage s v w → pt'.get (entryPtr w k) = pt.get (entryPtr w k)) :
    u.Takes pt' lo s v ↔ u.Takes pt lo s v := by
  induction s with
  | zero => exact clearsAt_congr (h v 0 le_rfl rfl)
  | succ s ih =>
    have hself := h v (s + 1) le_rfl rfl
    have hbelow := ih (Nat.le_of_succ_le hs) fun w k hk hw =>
      h w k (Nat.le_succ_of_le hk) (hw.mono (Nat.le_succ s) hs)
    rw [Takes, Takes, clearsAt_congr hself, removesAt_congr hself, hself, hbelow]
    refine or_congr .rfl (or_congr .rfl (and_congr .rfl (or_congr .rfl (exists_congr fun w => ?_))))
    refine and_congr .rfl (and_congr_right fun hw => and_congr .rfl ?_)
    exact takesAlong_congr (h w s (Nat.le_succ s) hw)

/-! ## Regions -/

/-- The flush of all rights of a region. -/
structure Unmaps (u : Unmapper μ) (lo s : Nat) (R : Word → Prop) (pt pt' : PageTable) : Prop where
  frame : ∀ {v r}, r ≤ 7 → (r ≤ s → ¬R v) → (∀ w, R w → entryPtr v r ≠ entryPtr w s) →
    pt'.get (entryPtr v r) = pt.get (entryPtr v r)
  /-- Larger groups stay split, if they are not taken along. -/
  split : ∀ {v w r}, s < r → r ≤ 7 → w.toNat < 2 ^ 41 → R w → entryPtr v r = entryPtr w s →
    ¬(r = s + 1 ∧ u.TakesAlong pt lo s w) → (pt.get (entryPtr v r)).Split r →
    (pt'.get (entryPtr v r)).Split r
  lost : ∀ {v w}, w.toNat < 2 ^ 41 → R w → entryPtr v (s + 1) = entryPtr w s →
    u.TakesAlong pt lo s w → (pt'.get (entryPtr v (s + 1))).valid (s + 1) = false
  taken : ∀ {v}, v.toNat < 2 ^ 41 → R v → u.Takes pt lo s v →
    pt'.lookupFrom v s (entryPtr v s) = none
  kept : ∀ {v}, v.toNat < 2 ^ 41 → R v → ¬u.Takes pt lo s v →
    pt'.lookupFrom v s (entryPtr v s) = pt.lookupFrom v s (entryPtr v s) ∧
      ∀ p r, pt.lookupFrom v s (entryPtr v s) = some (p, r) → pt'.get p = pt.get p

namespace Unmaps

theorem get_eq (h : Unmaps u lo s R pt pt') (hR : Paged s R) (hs : s ≤ 7) (hr : r ≤ s)
    (hv : ¬R v) : pt'.get (entryPtr v r) = pt.get (entryPtr v r) :=
  h.frame (hr.trans hs) (fun _ => hv) fun _ hw => entryPtr_ne hR hs hr hv hw

theorem lookup_eq (h : Unmaps u lo s R pt pt') (hR : Paged s R) (hs : s ≤ 7) (hv : ¬R v) :
    pt'.lookupFrom v s (entryPtr v s) = pt.lookupFrom v s (entryPtr v s) :=
  lookupFrom_eq hs fun _ hk => h.get_eq hR hs hk hv

theorem takes_iff (h : Unmaps u lo s R pt pt') (hR : Paged s R) (hs : s ≤ 7) (hv : ¬R v) :
    u.Takes pt' lo s v ↔ u.Takes pt lo s v :=
  takes_congr hs fun _ _ hk hw =>
    h.get_eq hR hs hk fun hRw => hv (hR hRw (samePage_symm hw))

theorem takesAlong_iff (h : Unmaps u lo s R pt pt') (hR : Paged s R) (hs : s ≤ 7) (hv : ¬R v) :
    u.TakesAlong pt' lo s v ↔ u.TakesAlong pt lo s v :=
  takesAlong_congr (h.get_eq hR hs le_rfl hv)

theorem empty : Unmaps u lo s (fun _ => False) pt pt where
  frame _ _ _ := rfl
  split _ _ _ h := h.elim
  lost _ h := h.elim
  taken _ h := h.elim
  kept _ h := h.elim

/-- Two regions are flushed one after the other. -/
theorem append (hs : s ≤ 7) (hR : Paged s R) (hR' : Paged s R') (hdisj : ∀ v, R v → ¬R' v)
    (h : Unmaps u lo s R pt pt') (h' : Unmaps u lo s R' pt' pt'') :
    Unmaps u lo s (fun v => R v ∨ R' v) pt pt'' where
  frame hr hv hne := by
    rw [h'.frame hr (fun hrs hv' => hv hrs (.inr hv')) fun w hw => hne w (.inr hw),
      h.frame hr (fun hrs hv' => hv hrs (.inl hv')) fun w hw => hne w (.inl hw)]
  split {v w r} hsr hr hlt hw heq hfree hsplit := by
    rcases hw with hw | hw
    · have hsplit' := h.split hsr hr hlt hw heq hfree hsplit
      rw [heq] at hsplit' ⊢
      rwa [h'.get_eq hR' hs le_rfl (hdisj w hw)]
    · have hw' : ¬R w := fun hRw => hdisj w hRw hw
      rw [← h.takesAlong_iff hR hs hw'] at hfree
      refine h'.split hsr hr hlt hw heq hfree ?_
      rw [heq] at hsplit ⊢
      rwa [h.get_eq hR hs le_rfl hw']
  lost {v w} hlt hw heq htakes := by
    rcases hw with hw | hw
    · have hlost := h.lost hlt hw heq htakes
      rw [heq] at hlost ⊢
      rwa [h'.get_eq hR' hs le_rfl (hdisj w hw)]
    · rw [← h.takesAlong_iff hR hs fun hRw => hdisj w hRw hw] at htakes
      exact h'.lost hlt hw heq htakes
  taken {v} hlt hv htakes := by
    rcases hv with hv | hv
    · rw [h'.lookup_eq hR' hs (hdisj v hv)]
      exact h.taken hlt hv htakes
    · rw [← h.takes_iff hR hs fun hRv => hdisj v hRv hv] at htakes
      exact h'.taken hlt hv htakes
  kept {v} hlt hv hfree := by
    rcases hv with hv | hv
    · obtain ⟨hlook, hget⟩ := h.kept hlt hv hfree
      refine ⟨(h'.lookup_eq hR' hs (hdisj v hv)).trans hlook, fun p r hfound => ?_⟩
      obtain ⟨rfl, hrs⟩ := lookupFrom_some hs hfound
      rw [h'.get_eq hR' hs hrs (hdisj v hv)]
      exact hget _ _ hfound
    · have hv' : ¬R v := fun hRv => hdisj v hRv hv
      rw [← h.takes_iff hR hs hv'] at hfree
      obtain ⟨hlook, hget⟩ := h'.kept hlt hv hfree
      refine ⟨hlook.trans (h.lookup_eq hR hs hv'), fun p r hfound => ?_⟩
      obtain ⟨rfl, hrs⟩ := lookupFrom_some hs hfound
      rw [← h.lookup_eq hR hs hv'] at hfound
      rw [hget _ _ hfound, h.get_eq hR hs hrs hv']

/-- Nothing is done at an entry that is invalid or not mappable. -/
theorem skip (hs : s ≤ 7) (ha : AtPage lo s a) (hsplit : ¬(pt.get (entryPtr a s)).Split s)
    (hskip : (pt.get (entryPtr a s)).valid s = true → u.space.isMappable a = false) :
    Unmaps u lo s (SamePage s a) pt pt := by
  have hclear : ∀ {v}, v.toNat < 2 ^ 41 → SamePage s a v → ¬u.ClearsAt pt lo s v := by
    intro v hlt hv hclear
    obtain ⟨hval, -, hmap⟩ := hclear
    rw [entryPtr_congr hv le_rfl hs] at hval
    rw [ha.firstAddress_eq hlt hv, hskip hval] at hmap
    cases hmap
  have hself : ∀ {v}, SamePage s a v → ¬(pt.get (entryPtr v s)).Split s := by
    intro v hv
    rwa [entryPtr_congr hv le_rfl hs]
  refine ⟨fun _ _ _ => rfl, fun _ _ _ _ _ _ h => h, fun {v w} hlt hw heq htakes => ?_,
    fun {v} hlt hv htakes => ?_, fun _ _ _ => ⟨rfl, fun _ _ _ => rfl⟩⟩
  · rcases htakes with ⟨hrem, -⟩ | ⟨hcl, -⟩
    · exact absurd hrem.1 (hself hw)
    · exact absurd hcl (hclear hlt hw)
  · exact absurd htakes (not_takes (hself hv) (hclear hlt hv))

/-- A mapping is flushed. -/
theorem leaf (hs : s ≤ 7) (ha : AtPage lo s a) (hval : (pt.get (entryPtr a s)).valid s = true)
    (hsub : (pt.get (entryPtr a s)).subtree s = false) (hmap : u.space.isMappable a = true) :
    Unmaps u lo s (SamePage s a) pt (pt.clear (entryPtr a s) s false) := by
  have hself : (pt.clear (entryPtr a s) s false).get (entryPtr a s) =
      (PgOp.clear false).entry (pt.get (entryPtr a s)) s :=
    @PgOp.get_apply_self (.clear false) ..
  have hsame : ∀ {v}, SamePage s a v → entryPtr v s = entryPtr a s :=
    fun h => entryPtr_congr h le_rfl hs
  have hclear : ∀ {v}, v.toNat < 2 ^ 41 → SamePage s a v → u.ClearsAt pt lo s v := by
    intro v hlt hv
    rw [ClearsAt, hsame hv, ha.firstAddress_eq hlt hv]
    exact ⟨hval, hsub, hmap⟩
  refine ⟨fun _ _ hne => get_clear_of_ne (hne a rfl),
    fun {v w r} hsr hr hlt hw heq hfree hsplit => ?_, fun {v w} hlt hw heq htakes => ?_,
    fun {v} hlt hv htakes => ?_, fun {v} hlt hv hfree => ?_⟩
  · rw [hsame hw] at heq
    have hshare := PgOp.entryPtr_eq_of_lt heq hsr hr
    rw [heq] at hsplit ⊢
    rw [hself]
    exact PgOp.split_entry hs hsr hr hshare hsplit fun hcol hrs =>
      hfree ⟨hrs, .inr ⟨hclear hlt hw, hcol⟩⟩
  · rcases htakes with ⟨hrem, -⟩ | ⟨-, hcol⟩
    · have hsub' := hrem.1.2
      rw [hsame hw, hsub] at hsub'
      cases hsub'
    · rw [heq, hsame hw, hself]
      exact PgOp.not_valid_entry hcol
  · exact lookupFrom_of_not_valid (by rw [hsame hv, hself, not_valid_clear hsub])
  · exact absurd (hclear hlt hv).takes hfree

/-- An entry of a larger size is left alone, or is the first one of a page of the region. -/
theorem get_eq_or (hR : Paged s R) (hsr : s < r) (hr : r ≤ 7) (h : Unmaps u lo s R pt pt') :
    pt'.get (entryPtr v r) = pt.get (entryPtr v r) ∨
      ∃ w, w.toNat < 2 ^ 41 ∧ R w ∧ entryPtr v r = entryPtr w s := by
  have hs : s ≤ 7 := (Nat.le_of_lt hsr).trans hr
  by_cases hshared : ∃ w, R w ∧ entryPtr v r = entryPtr w s
  · obtain ⟨w, hw, heq⟩ := hshared
    obtain ⟨w', hlt, hw', heq'⟩ := exists_lt hR hs hw
    exact .inr ⟨w', hlt, hw', heq.trans heq'.symm⟩
  · refine .inl (h.frame hr (fun hrs => absurd hsr (Nat.not_lt.mpr hrs)) fun w hw heq => ?_)
    exact hshared ⟨w, hw, heq⟩

/-- The entries above the next size stay split. -/
theorem split_of_lt (hR : Paged s R) (hsr : s + 1 < r) (hr : r ≤ 7) (h : Unmaps u lo s R pt pt')
    (hsplit : (pt.get (entryPtr v r)).Split r) : (pt'.get (entryPtr v r)).Split r := by
  rcases h.get_eq_or hR (Nat.lt_of_succ_lt hsr) hr with heq | ⟨w, hlt, hw, heq⟩
  · rwa [heq]
  · exact h.split (Nat.lt_of_succ_lt hsr) hr hlt hw heq (fun h => (Nat.ne_of_gt hsr) h.1) hsplit

/-- The entry above a region stays split if it is not taken along. -/
theorem split_above (hR : Paged s R) (hs : s < 7) (h : Unmaps u lo s R pt pt')
    (hfree : ∀ w, w.toNat < 2 ^ 41 → R w → entryPtr v (s + 1) = entryPtr w s →
      ¬u.TakesAlong pt lo s w)
    (hsplit : (pt.get (entryPtr v (s + 1))).Split (s + 1)) :
    (pt'.get (entryPtr v (s + 1))).Split (s + 1) := by
  rcases h.get_eq_or (v := v) hR (Nat.lt_succ_self s) hs with heq | ⟨w, hlt, hw, heq⟩
  · rwa [heq]
  · exact h.split (Nat.lt_succ_self s) hs hlt hw heq (fun hr => hfree w hlt hw heq hr.2) hsplit

/-- The entry above a region stays split or is emptied. -/
theorem split_or (hR : Paged s R) (hsr : s < r) (hr : r ≤ 7) (h : Unmaps u lo s R pt pt')
    (hsplit : (pt.get (entryPtr v r)).Split r) :
    (pt'.get (entryPtr v r)).Split r ∨ (pt'.get (entryPtr v r)).valid r = false := by
  rcases Nat.lt_or_eq_of_le (Nat.succ_le_of_lt hsr) with hlt | rfl
  · exact .inl (h.split_of_lt hR hlt hr hsplit)
  · by_cases hfree : ∀ w, w.toNat < 2 ^ 41 → R w → entryPtr v (s + 1) = entryPtr w s →
      ¬u.TakesAlong pt lo s w
    · exact .inl (h.split_above hR hr hfree hsplit)
    · push Not at hfree
      obtain ⟨w, hlt, hw, heq, htakes⟩ := hfree
      exact .inr (h.lost hlt hw heq htakes)

section Above

variable (hs : s < 7) (h : Unmaps u lo s (SamePage (s + 1) a) pt pt')
  (hsplit : (pt.get (entryPtr a (s + 1))).Split (s + 1))
include hs h

theorem frame_above (hr : r ≤ 7) (hv : r ≤ s + 1 → ¬SamePage (s + 1) a v)
    (hne : ∀ w, SamePage (s + 1) a w → entryPtr v r ≠ entryPtr w (s + 1)) :
    pt'.get (entryPtr v r) = pt.get (entryPtr v r) := by
  refine h.frame hr (fun hrs => hv (Nat.le_succ_of_le hrs)) fun w hw heq => ?_
  rcases Nat.lt_or_ge s r with hsr | hrs
  · have hshare := PgOp.entryPtr_eq_of_lt heq hsr hr
    exact hne w hw (heq.trans (entryPtr_eq_between hshare (Nat.le_succ s) hsr hr).symm)
  · have hpage := samePage_of_entryPtr_eq heq hrs (Nat.le_of_lt hs)
    exact hv (Nat.le_succ_of_le hrs) (paged_page hw (hpage.mono (Nat.le_succ s) hs))

include hsplit

/-- The table below an entry stays. -/
theorem above (htest : ¬RemovesTables u.space) :
    Unmaps u lo (s + 1) (SamePage (s + 1) a) pt pt' := by
  have hpaged : Paged s (SamePage (s + 1) a) := fun hv hw =>
    paged_page hv (hw.mono (Nat.le_succ s) hs)
  have hself : ∀ {v}, SamePage (s + 1) a v → (pt.get (entryPtr v (s + 1))).Split (s + 1) := by
    intro v hv
    rwa [entryPtr_congr hv le_rfl hs]
  have hclear : ∀ {v}, SamePage (s + 1) a v → ¬u.ClearsAt pt lo (s + 1) v := by
    intro v hv hcl
    exact Bool.false_ne_true (hcl.2.1.symm.trans (hself hv).2)
  have hrem : ∀ {v}, v.toNat < 2 ^ 41 → SamePage (s + 1) a v → ¬u.RemovesAt pt (s + 1) v := by
    intro v hlt hv hrem
    exact htest hrem.2
  refine ⟨fun hr hv hne => h.frame_above hs hr hv hne, fun {v w r} hsr hr hlt hw heq _ hsp => ?_,
    fun {v w} hlt hw heq htakes => ?_, fun {v} hlt hv htakes => ?_,
    fun {v} hlt hv hfree => ?_⟩
  · exact h.split_of_lt hpaged hsr hr hsp
  · rcases htakes with ⟨hr, -⟩ | ⟨hcl, -⟩
    · exact absurd hr (hrem hlt hw)
    · exact absurd hcl (hclear hw)
  · rcases htakes with hcl | hr | ⟨-, hbelow⟩
    · exact absurd hcl (hclear hv)
    · exact absurd hr (hrem hlt hv)
    · rcases hbelow with hbelow | ⟨w, hw, hvw, heq, htakes⟩
      · rcases h.split_or hpaged (Nat.lt_succ_self s) hs (hself hv) with hsp | hinv
        · rw [lookupFrom_of_split hs hsp]
          exact h.taken hlt hv hbelow
        · exact lookupFrom_of_not_valid hinv
      · exact lookupFrom_of_not_valid (h.lost hw (paged_page hv hvw) heq htakes)
  · have hbelow : ¬u.Takes pt lo s v := fun ht => hfree (.inr (.inr ⟨hself hv, .inl ht⟩))
    have hsp : (pt'.get (entryPtr v (s + 1))).Split (s + 1) := by
      refine h.split_above hpaged hs (fun w hw hwR heq htakes => ?_) (hself hv)
      have hvw := hwR.trans (samePage_symm hv)
      exact hfree (.inr (.inr ⟨hself hv, .inr ⟨w, hw, hvw, heq, htakes⟩⟩))
    rw [lookupFrom_of_split hs hsp, lookupFrom_of_split hs (hself hv)]
    exact h.kept hlt hv hbelow

/-- The table below an entry is removed. -/
theorem remove (htest : RemovesTables u.space) :
    Unmaps u lo (s + 1) (SamePage (s + 1) a) pt
      (pt'.removeSubtree (entryPtr a (s + 1)) (s + 1)) := by
  have hpaged : Paged s (SamePage (s + 1) a) := fun hv hw =>
    paged_page hv (hw.mono (Nat.le_succ s) hs)
  have hgone : (pt'.removeSubtree (entryPtr a (s + 1)) (s + 1)).get (entryPtr a (s + 1)) =
      PgOp.removeSubtree.entry (pt'.get (entryPtr a (s + 1))) (s + 1) :=
    @PgOp.get_apply_self .removeSubtree ..
  have hsame : ∀ {v}, SamePage (s + 1) a v → entryPtr v (s + 1) = entryPtr a (s + 1) :=
    fun hv => entryPtr_congr hv le_rfl hs
  have hrem : ∀ {v}, v.toNat < 2 ^ 41 → SamePage (s + 1) a v → u.RemovesAt pt (s + 1) v := by
    intro v hlt hv
    rw [RemovesAt, hsame hv]
    exact ⟨hsplit, htest⟩
  refine ⟨fun hr hv hne => ?_, fun {v w r} hsr hr hlt hw heq hfree hsp => ?_,
    fun {v w} hlt hw heq htakes => ?_, fun {v} hlt hv _ => ?_, fun {v} hlt hv hfree => ?_⟩
  · rw [get_removeSubtree_of_ne (hne a rfl), h.frame_above hs hr hv hne]
  · have hsp' := h.split_of_lt hpaged hsr hr hsp
    rw [hsame hw] at heq
    have hshare := PgOp.entryPtr_eq_of_lt heq hsr hr
    rw [heq] at hsp' ⊢
    rw [hgone]
    exact PgOp.split_entry ⟨Nat.succ_pos s, hs⟩ hsr hr hshare hsp' fun hcol hrs =>
      hfree ⟨hrs, .inl ⟨hrem hlt hw, hcol⟩⟩
  · rcases htakes with ⟨-, hcol⟩ | ⟨hcl, -⟩
    · rw [heq, hsame hw, hgone]
      exact PgOp.not_valid_entry hcol
    · have hsub := hcl.2.1
      rw [hsame hw, hsplit.2] at hsub
      cases hsub
  · exact lookupFrom_of_not_valid (by rw [hsame hv, hgone, not_valid_removeSubtree hs])
  · exact absurd (hrem hlt hv).takes hfree

end Above

end Unmaps

/-! ## The visit -/

section Visit

variable (hrwx : fpage.isRwx = true) (hflush : u.ClearsEntry)

/-- The pages of a row are flushed one after the other. -/
theorem unmaps_range (hs : s ≤ 7) {visit : PgPtr → Word → Visited μ → Visited μ}
    (hvisit : ∀ {a x}, AtPage lo s a →
      Unmaps u lo s (SamePage s a) x.2.1 (visit (entryPtr a s) a x).2.1)
    {n : Nat} {x : Visited μ} (h : Row lo s a n) :
    Unmaps u lo s (InRow s a n) x.2.1 (visitRange s visit n (entryPtr a s) a x).2.1 := by
  induction n generalizing a x with
  | zero =>
    have hempty : InRow s a 0 = fun _ => False := funext fun v => by
      simp [InRow]
    rw [hempty]
    exact .empty
  | succ n ih =>
    have hfirst : AtPage lo s a := by simpa [addPages_zero] using h.page (Nat.succ_pos n)
    have hregion : InRow s a (n + 1) = fun v => SamePage s a v ∨ InRow s (addPages s a 1) n v :=
      funext fun v => propext inRow_succ
    rw [hregion]
    refine (hvisit hfirst).append hs paged_page paged_inRow (fun v => h.disjoint hs) ?_
    cases n with
    | zero => exact ih (h.tail hs)
    | succ n =>
      have hnext : (entryPtr a s).next s 1 = entryPtr (addPages s a 1) s :=
        (h.entry (k := 1) (by omega)).symm
      rw [visitRange, hnext, ← addPages_one]
      exact ih (h.tail hs)

include hrwx hflush

/-- The visit of an entry without a table below. -/
theorem unmaps_leaf (hs : s ≤ 7) {x : Visited μ} (ha : AtPage lo s a)
    (hsplit : ¬(x.2.1.get (entryPtr a s)).Split s) : Unmaps u lo s (SamePage s a) x.2.1
      (u.visit fpage true false pgsize s (entryPtr a s) a x).2.1 := by
  rw [visit_of_not_split hsplit]
  split
  · rename_i hval
    have hsub : (x.2.1.get (entryPtr a s)).subtree s = false :=
      Bool.eq_false_iff.mpr fun hsub => hsplit ⟨hval, hsub⟩
    simp only [visitLeaf, unmapLeaf]
    split
    · rename_i hmap
      have hdone : ∀ c : FlushArgs, c.fPg = entryPtr a s → c.fHwpgsize = s → c.fp = fpage →
          c.unmapSelf = true →
          Unmaps u lo s (SamePage s a) x.2.1 (u.mdbFlush c x.2).2.1 := by
        intro c hpg hsize hfp hself
        rw [hflush c _ (hfp ▸ hrwx) hself, hpg, hsize]
        exact .leaf hs ha hval hsub hmap
      exact hdone _ rfl rfl rfl rfl
    · rename_i hmap
      rw [if_neg Bool.false_ne_true]
      exact .skip hs ha hsplit fun _ => Bool.eq_false_iff.mpr hmap
  · rename_i hval
    exact .skip hs ha hsplit fun h => absurd h hval

/-- What the visit of a page takes. -/
theorem unmaps_visit (hlo : lo < 2 ^ 12) (hs : s ≤ 7) {x : Visited μ} (ha : AtPage lo s a) :
    Unmaps u lo s (SamePage s a) x.2.1
      (u.visit fpage true false pgsize s (entryPtr a s) a x).2.1 := by
  induction s generalizing a x with
  | zero =>
    refine unmaps_leaf hrwx hflush hs ha ?_
    rintro ⟨-, hsub⟩
    rw [subtree_zero] at hsub
    cases hsub
  | succ s ih =>
    by_cases hsplit : (x.2.1.get (entryPtr a (s + 1))).Split (s + 1)
    · have hf := unmaps_range (x := x) (Nat.le_of_lt hs) (fun ha => ih (Nat.le_of_lt hs) ha)
        (ha.row hlo hs)
      rw [ha.inRow hlo hs] at hf
      rw [visit, if_pos hsplit.1, if_pos hsplit.2, ← ha.entry hlo hs, leaveSubtree]
      simp only [hrwx, Bool.true_and, Bool.false_or]
      split
      · rename_i htest
        exact hf.remove hs hsplit ((isMappableFpage_set hs).mp htest)
      · rename_i htest
        exact hf.above hs hsplit fun h => htest ((isMappableFpage_set hs).mpr h)
    · exact unmaps_leaf hrwx hflush hs ha hsplit

end Visit

/-! ## The flexpage -/

/-- A flush of all rights of the flexpage takes the translation of an address: in a page of the
flexpage, or with a group whose first entry is one of the flexpage. -/
def LosesTranslation (u : Unmapper μ) (pt : PageTable) (f : Fpage) (v : Word) : Prop :=
  pt.Walks (f.addressWrapped f.getSizeLog2) (walkPgsize f) ∧
    (Space.isUserArea v = true ∧ f.Includes v ∧ u.Takes pt f.lowBits (walkPgsize f) v ∨
      ∃ w, Space.isUserArea w = true ∧ f.Includes w ∧
        entryPtr v (walkPgsize f + 1) = entryPtr w (walkPgsize f) ∧
          u.TakesAlong pt f.lowBits (walkPgsize f) w)

theorem TakesAlong.lt (h : u.TakesAlong pt lo s v) : s < 7 := by
  rcases h with ⟨-, hcol⟩ | ⟨-, hcol⟩
  · simp only [PgOp.Collapses, PgSize.size16k, PgSize.size64k, PgSize.size256k,
      PgSize.size4m] at hcol
    omega
  · simp only [PgOp.Collapses, PgSize.size4m] at hcol
    omega

/-- A walk that does not stop at an entry of a larger size finds nothing. -/
theorem lookupMapping_eq_none_of (hs : s ≤ 7)
    (habove : ∀ r, s < r → r ≤ 7 →
      (pt.get (entryPtr v r)).Split r ∨ (pt.get (entryPtr v r)).valid r = false)
    (h : pt.lookupFrom v s (entryPtr v s) = none) : pt.lookupMapping v = none := by
  cases hlook : pt.lookupMapping v with
  | none => rfl
  | some x =>
    obtain ⟨p, r⟩ := x
    obtain ⟨hr, rfl, hw, hsplit⟩ := walks_of_lookup hlook
    rcases Nat.lt_or_ge s r with hsr | hrs
    · rcases habove r hsr hr with hsp | hinv
      · exact absurd hsp hsplit
      · rw [lookupMapping_eq hw hr, lookupFrom_of_not_valid hinv] at hlook
        cases hlook
    · have hws : pt.Walks v s := fun t ht ht7 => hw t (Nat.lt_of_le_of_lt hrs ht) ht7
      rw [lookupMapping_eq hws hs, h] at hlook
      cases hlook

section Result

variable
  (hR : ∀ {v : Word}, v.toNat < 2 ^ 41 → (R v ↔ fpage.Includes v ∧ v.toNat < 2 ^ 40))
  (hpaged : Paged (walkPgsize fpage) R)
  (hw : ∀ {v : Word}, v.toNat < 2 ^ 40 → fpage.Includes v → pt.Walks v (walkPgsize fpage))
  (h : Unmaps u fpage.lowBits (walkPgsize fpage) R pt pt')
include hR hpaged hw h

theorem Unmaps.lookup_eq_none (hv : v.toNat < 2 ^ 41) (hlost : u.LosesTranslation pt fpage v) :
    pt'.lookupMapping v = none := by
  have hs : walkPgsize fpage ≤ 7 := walkPgsize_le
  rcases hlost.2 with ⟨huser, hin, htakes⟩ | ⟨w, huser, hin, heq, htakes⟩
  · have hlt := Space.isUserArea_iff.mp huser
    refine lookupMapping_eq_none_of hs (fun r hr hr7 => h.split_or hpaged hr hr7 ?_)
      (h.taken hv ((hR hv).mpr ⟨hin, hlt⟩) htakes)
    exact hw hlt hin r hr hr7
  · have hlt := Space.isUserArea_iff.mp huser
    have hlt41 : w.toNat < 2 ^ 41 := Nat.lt_trans hlt (by decide)
    have hs7 := htakes.lt
    have hself := PgOp.entryPtr_eq_of_lt heq (Nat.lt_succ_self _) hs7
    have hpage := samePage_of_entryPtr_eq (heq.trans hself.symm) le_rfl hs7
    have hinv := h.lost hlt41 ((hR hlt41).mpr ⟨hin, hlt⟩) heq htakes
    refine lookupMapping_eq_none_of hs7 (fun r hr hr7 => .inl ?_) (lookupFrom_of_not_valid hinv)
    refine h.split_of_lt hpaged hr hr7 ?_
    rw [entryPtr_congr hpage (Nat.le_of_lt hr) hr7]
    exact hw hlt hin r (Nat.lt_of_succ_lt hr) hr7

theorem Unmaps.view_eq (hw' : pt.Walks (fpage.addressWrapped fpage.getSizeLog2) (walkPgsize fpage))
    (hv : v.toNat < 2 ^ 41) (hkept : ¬u.LosesTranslation pt fpage v) : pt'.view v = pt.view v := by
  have hs : walkPgsize fpage ≤ 7 := walkPgsize_le
  have hfree : ¬(Space.isUserArea v = true ∧ fpage.Includes v ∧
      u.Takes pt fpage.lowBits (walkPgsize fpage) v) := fun ht => hkept ⟨hw', .inl ht⟩
  have habove : ∀ w, w.toNat < 2 ^ 41 → R w →
      entryPtr v (walkPgsize fpage + 1) = entryPtr w (walkPgsize fpage) →
      ¬u.TakesAlong pt fpage.lowBits (walkPgsize fpage) w := by
    intro w hlt hRw heq htakes
    obtain ⟨hin, hlt'⟩ := (hR hlt).mp hRw
    exact hkept ⟨hw', .inr ⟨w, Space.isUserArea_iff.mpr hlt', hin, heq, htakes⟩⟩
  have hsplit : ∀ r, walkPgsize fpage < r → r ≤ 7 → (pt.get (entryPtr v r)).Split r →
      (pt'.get (entryPtr v r)).Split r := by
    intro r hr hr7 hsp
    rcases Nat.lt_or_eq_of_le (Nat.succ_le_of_lt hr) with hlt | rfl
    · exact h.split_of_lt hpaged hlt hr7 hsp
    · exact h.split_above hpaged hr7 habove hsp
  by_cases hRv : R v
  · obtain ⟨hin, hlt⟩ := (hR hv).mp hRv
    have hwv := hw hlt hin
    have hwv' : pt'.Walks v (walkPgsize fpage) := fun r hr hr7 => hsplit r hr hr7 (hwv r hr hr7)
    obtain ⟨hlook, hget⟩ := h.kept hv hRv fun ht =>
      hfree ⟨Space.isUserArea_iff.mpr hlt, hin, ht⟩
    rw [view, view, lookupMapping_eq hwv hs, lookupMapping_eq hwv' hs, hlook]
    cases hfound : pt.lookupFrom v (walkPgsize fpage) (entryPtr v (walkPgsize fpage)) with
    | none => rfl
    | some x => rw [Option.map_some, Option.map_some, hget x.1 x.2 hfound]
  · refine view_congr fun r hr => ?_
    rcases Nat.lt_or_ge (walkPgsize fpage) r with hsr | hrs
    · rcases h.get_eq_or (v := v) hpaged hsr hr with heq | ⟨w, hlt, hRw, heq⟩
      · exact .inl heq
      · -- the entry is one of the flexpage, read at a larger size
        obtain ⟨hin, hlt'⟩ := (hR hlt).mp hRw
        have hsp : (pt.get (entryPtr v r)).Split r := by
          rw [heq, ← PgOp.entryPtr_eq_of_lt heq hsr hr]
          exact hw hlt' hin r hsr hr
        exact .inr ⟨hsplit r hsr hr hsp, hsp⟩
    · exact .inl (h.get_eq hpaged hs hrs hRv)

end Result

/-- A flush of all rights ends. The addresses that lose their translation are not mapped after it,
and the others are as before. -/
theorem exists_ends_flush {m : μ} (hrwx : fpage.isRwx = true) (hflush : u.ClearsEntry)
    (h12 : 12 ≤ fpage.getSizeLog2) (pt : PageTable) :
    ∃ x, Ends u fpage true false (walkPgsize fpage)
      (startWalk fpage (min fpage.getSizeLog2 (pageShift (PgSize.sizeMax + 1)))
        (walkPgsize fpage)) (pt, m) x ∧
      ∀ v : Word, v.toNat < 2 ^ 41 →
        (u.LosesTranslation pt fpage v → x.2.1.lookupMapping v = none) ∧
          (¬u.LosesTranslation pt fpage v → x.2.1.view v = pt.view v) := by
  have hs : walkPgsize fpage ≤ 7 := walkPgsize_le
  have hlo := fpage.lowBits_lt
  have hincl := includes_first h12
  have htoNat := Fpage.toNat_addressWrapped h12
  rcases Nat.lt_or_ge fpage.first (2 ^ 40) with hfirst | hfirst
  · have hlt : (fpage.addressWrapped fpage.getSizeLog2).toNat < 2 ^ 40 := by
      obtain ⟨c, hc⟩ : 2 ^ 12 ∣ fpage.first :=
        (Nat.pow_dvd_pow 2 h12).trans (Fpage.first_aligned h12)
      omega
    have huser := Space.isUserArea_iff.mpr hlt
    have hlt41 := Nat.lt_trans hlt (show 2 ^ 40 < 2 ^ 41 by decide)
    rcases exists_walks pt (fpage.addressWrapped fpage.getSizeLog2) (Nat.add_sub_cancel' hs) with
      hw | ⟨t, ht, ht7, hw, hsplit⟩
    · -- the pages of the flexpage are visited
      obtain ⟨n, hn, hrow, hend, hmem⟩ := exists_row h12 hfirst
      have hvisit : ∀ {a x}, AtPage fpage.lowBits (walkPgsize fpage) a →
          Unmaps u fpage.lowBits (walkPgsize fpage) (SamePage (walkPgsize fpage) a) x.2.1
            (u.visit fpage true false (walkPgsize fpage) (walkPgsize fpage)
              (entryPtr a (walkPgsize fpage)) a x).2.1 :=
        fun ha => unmaps_visit hrwx hflush hlo hs ha
      have hdone := unmaps_range (x := (0, (pt, m))) hs hvisit hrow
      have hwalks : ∀ {v : Word}, v.toNat < 2 ^ 40 → fpage.Includes v →
          pt.Walks v (walkPgsize fpage) := fun hv hin =>
        walks_of_includes h12 hincl hlt41 le_rfl hw hin (Nat.lt_trans hv (by decide))
      refine ⟨_, Ends.of_reaches (ends_range hs rfl hn (fun k hk => ?_) hend)
        (reaches_walks _ le_rfl hs huser hw), fun v hv => ⟨fun hlost => ?_, fun hkept => ?_⟩⟩
      · exact (hrow.page hk).inUserArea hlo hs
      · exact hdone.lookup_eq_none hmem paged_inRow hwalks hv hlost
      · exact hdone.view_eq hmem paged_inRow hwalks hw hv hkept
    · -- the walk stops above the flexpage
      refine ⟨_, Ends.of_reaches (ends_of_stop (.inr (unmapStep_of_large hrwx ht hsplit)))
        (reaches_walks _ (Nat.le_of_lt ht) ht7 huser hw),
        fun v _ => ⟨fun hlost => ?_, fun _ => rfl⟩⟩
      exact absurd (hlost.1 t ht ht7) hsplit
  · -- the flexpage is not in the user area
    have hout : ∀ {v : Word}, Space.isUserArea v = true → ¬fpage.Includes v := fun huser hin =>
      Nat.lt_irrefl _ (Nat.lt_of_le_of_lt (hfirst.trans hin.1) (Space.isUserArea_iff.mp huser))
    have hstop : u.unmapStep fpage true false (walkPgsize fpage)
        (startWalk fpage (min fpage.getSizeLog2 (pageShift (PgSize.sizeMax + 1)))
          (walkPgsize fpage)) (pt, m) = none := by
      have huser := Bool.eq_false_iff.mpr fun huser => hout huser hincl
      simp only [unmapStep, startWalk, huser, Bool.not_false, if_true]
    refine ⟨_, ends_of_stop (.inr hstop), fun v _ => ⟨fun hlost => ?_, fun _ => rfl⟩⟩
    rcases hlost.2 with ⟨huser, hin, -⟩ | ⟨w, huser, hin, -⟩
    · exact absurd hin (hout huser)
    · exact absurd hin (hout huser)

/-! ## Termination -/

section Ends

variable {flush unmapAll : Bool} {x : UnmapWalk} {st : PageTable × μ} {n : Nat}

theorem low_add {t : Nat} (hs : s ≤ t) (ht : t ≤ 7) (h : a.toNat % 2 ^ pageShift s < 2 ^ 12) :
    (a + pageSizeBytes t).toNat % 2 ^ pageShift s < 2 ^ 12 := by
  have hbytes : (pageSizeBytes t).toNat = 2 ^ pageShift t := by
    interval_cases t
    all_goals decide
  have hdvd : 2 ^ pageShift s ∣ 2 ^ pageShift t := Nat.pow_dvd_pow 2 (pageShift_mono t ht s hs)
  have hdvd' : 2 ^ pageShift s ∣ 2 ^ 64 := by
    refine Nat.pow_dvd_pow 2 ?_
    have hle := (pageShift_bounds (hs.trans ht)).2
    omega
  rw [BitVec.toNat_add, hbytes, Nat.mod_mod_of_dvd _ hdvd', Nat.add_mod,
    Nat.mod_eq_zero_of_dvd hdvd, Nat.add_zero, Nat.mod_mod]
  exact h

/-- The walk ends from an entry of its own size on. -/
theorem exists_ends_row (st : PageTable × μ) (h7 : pgsize ≤ 7) (hs : x.size = pgsize) (hnum : x.num = n)
    (hlow : x.vaddr.toNat % 2 ^ pageShift pgsize < 2 ^ 12) :
    ∃ y, Ends u fpage flush unmapAll pgsize x st y := by
  induction n generalizing x st with
  | zero => exact ⟨_, ends_of_stop (.inl hnum)⟩
  | succ n ih =>
    cases huser : Space.isUserArea x.vaddr with
    | false =>
      refine ⟨_, ends_of_stop (.inr ?_)⟩
      simp only [unmapStep, huser, Bool.not_false, if_true]
    | true =>
      have ha : AtPage (x.vaddr.toNat % 2 ^ pageShift pgsize) pgsize x.vaddr :=
        ⟨rfl, Space.isUserArea_iff.mp huser⟩
      have hne : x.num ≠ 0 := by omega
      have hvisits : Visits u fpage flush unmapAll pgsize pgsize := visits le_rfl h7
      obtain ⟨w, hw⟩ := hvisits x st hs hne (ha.inUserArea hlow h7)
      have hvaddr : (advance w).vaddr = x.vaddr + pageSizeBytes pgsize := by
        rw [advance, hw.vaddr, hw.size, hs]
      obtain ⟨y, hy⟩ := ih (x := advance w) _ (hw.size.trans hs)
        (by rw [advance, hw.num, hnum, Nat.add_sub_cancel]) (by
          rw [hvaddr]
          exact low_add le_rfl h7 hlow)
      exact ⟨y, hy.of_reaches (hw.advance (.inr hs))⟩

/-- Above its own size the walk goes down, or on to the next entry. -/
theorem unmapStep_of_lt {x' : UnmapWalk} {st' : PageTable × μ} (hlt : pgsize < x.size)
    (h : u.unmapStep fpage flush unmapAll pgsize x st = some (x', st')) :
    x' = descend x ∨ x'.size = x.size ∧ x'.num = x.num - 1 ∧
      x'.vaddr = x.vaddr + pageSizeBytes x.size := by
  have hup : pgsize - x.size = 0 := Nat.sub_eq_zero_of_le (Nat.le_of_lt hlt)
  simp only [unmapStep, hlt, true_and] at h
  split_ifs at h with huser hval hsub
  · cases h
    exact .inl rfl
  · rw [unmapLeaf_eq, nextEntry, hup, recurseUp] at h
    cases h
    exact .inr ⟨rfl, rfl, rfl⟩

/-- The walk ends from each of its places. -/
theorem exists_ends_walk {k : Nat} (st : PageTable × μ) (h7 : pgsize + k ≤ 7) (hs : x.size = pgsize + k)
    (hnum : x.num = n) (hlow : x.vaddr.toNat % 2 ^ pageShift pgsize < 2 ^ 12) :
    ∃ y, Ends u fpage flush unmapAll pgsize x st y := by
  induction n generalizing x st k with
  | zero => exact ⟨_, ends_of_stop (.inl hnum)⟩
  | succ n ih =>
    have hne : x.num ≠ 0 := by omega
    induction k generalizing x st with
    | zero => exact exists_ends_row st h7 hs hnum hlow
    | succ k ihk =>
      cases hstep : u.unmapStep fpage flush unmapAll pgsize x st with
      | none => exact ⟨_, ends_of_stop (.inr hstep)⟩
      | some y =>
        obtain ⟨x', st'⟩ := y
        have hreach := Reaches.step hne hstep
        rcases unmapStep_of_lt (by omega) hstep with rfl | ⟨hsize, hnum', hvaddr⟩
        · have hsize : (descend x).size = pgsize + k := by
            rw [descend, hs]
            rfl
          obtain ⟨y, hy⟩ := ihk st' (by omega) hsize hnum hlow hne
          exact ⟨y, hy.of_reaches hreach⟩
        · have hlow' : x'.vaddr.toNat % 2 ^ pageShift pgsize < 2 ^ 12 := by
            rw [hvaddr]
            exact low_add (by omega) (by omega) hlow
          obtain ⟨y, hy⟩ := ih st' h7 (hsize.trans hs) (by omega) hlow'
          exact ⟨y, hy.of_reaches hreach⟩

end Ends

/-! ## Without a flush of all rights -/

section Keeps

variable {flush : Bool} {x : UnmapWalk} {st : PageTable × μ} {n fuel : Nat} {I : PageTable → Prop}
  (hno : ¬(fpage.isRwx = true ∧ flush = true))
  (hkeeps : ∀ c st, c.fp = fpage → c.unmapSelf = flush → I st.1 → I (u.mdbFlush c st).2.1)
include hno

theorem recurseUp_keeps : (u.recurseUp fpage flush false n x st).2 = st := by
  have hflush : (flush && fpage.isRwx) = false := by
    rw [Bool.and_eq_false_iff, ← Bool.not_eq_true, ← Bool.not_eq_true]
    tauto
  induction n generalizing x st with
  | zero => rfl
  | succ n ih =>
    rw [recurseUp]
    split
    · simp only [hflush, Bool.false_and, Bool.false_eq_true, if_false]
      exact ih
    · rfl

include hkeeps

/-- Only `mdb_flush` changes the page table. -/
theorem unmapStep_keeps {x' : UnmapWalk} {st' : PageTable × μ} (hst : I st.1)
    (h : u.unmapStep fpage flush false pgsize x st = some (x', st')) : I st'.1 := by
  have hleaf : I (u.unmapLeaf fpage flush false pgsize x st).2.1 := by
    rw [unmapLeaf]
    split
    · exact hkeeps _ _ rfl rfl hst
    · rw [if_neg Bool.false_ne_true]
      exact hst
  simp only [unmapStep] at h
  split_ifs at h
  · cases h
    exact hst
  · have hkept := congrArg Prod.snd (Option.some_inj.mp h)
    rw [nextEntry, recurseUp_keeps hno] at hkept
    cases hkept
    exact hst
  · cases h
    exact hst
  · have hkept := congrArg Prod.snd (Option.some_inj.mp h)
    rw [nextEntry, recurseUp_keeps hno] at hkept
    cases hkept
    exact hleaf

theorem unmapLoop_keeps {y : Word × (PageTable × μ)} (hst : I st.1)
    (h : u.unmapLoop fpage flush false pgsize fuel x st = some y) : I y.2.1 := by
  induction fuel generalizing x st with
  | zero => cases h
  | succ fuel ih =>
    rw [unmapLoop] at h
    split at h
    · cases h
      exact hst
    · cases hstep : u.unmapStep fpage flush false pgsize x st with
      | none =>
        rw [hstep] at h
        cases h
        exact hst
      | some z =>
        rw [hstep] at h
        exact ih (unmapStep_keeps hno hkeeps hst hstep) h

end Keeps

/-! ## The result -/

/-- What `mdb_flush` does to the page table, where no page of the space was mapped from another one
of the space: a call for all rights with the own mapping clears its entry, and the others remove
nothing. -/
structure FlushesOwn (u : Unmapper μ) : Prop where
  clears : u.ClearsEntry
  keeps : ∀ c st v, ¬(c.fp.isRwx = true ∧ c.unmapSelf = true) →
    (u.mdbFlush c st).2.1.translation v = st.1.translation v

/-- The mapped addresses of the areas of the kernel interface page and of the UTCBs are translated as
before, through the same tables: a table is freed when the entry above it is emptied. -/
structure KeepsKernelMappings (sp : Space) (pt pt' : PageTable) : Prop where
  translation {v : Word} : sp.InKipOrUtcbArea v → pt'.translation v = pt.translation v
  tables {v : Word} {p : PgPtr} {r : Nat} : sp.InKipOrUtcbArea v →
    pt.lookupMapping v = some (p, r) → pt'.Walks v r

theorem keepsKernelMappings_of {sp : Space}
    (h : ∀ v, sp.InKipOrUtcbArea v → pt'.translation v = pt.translation v) :
    KeepsKernelMappings sp pt pt' where
  translation := h _
  tables {v p r} hv hlook := by
    have hkept := h v hv
    rw [PageTable.translation, PageTable.translation, hlook, Option.map_some] at hkept
    obtain ⟨⟨q, t⟩, hfound, heq⟩ := Option.map_eq_some_iff.mp hkept
    obtain ⟨-, heq⟩ := Prod.mk.inj heq
    obtain ⟨rfl, -⟩ := Prod.mk.inj heq
    exact (walks_of_lookup hfound).2.2.1

/-- An unmap of a user ends. It keeps the translations of the areas of the kernel interface page and
of the UTCBs if and only if it does not flush all rights, or no mapped address of them loses its
translation. -/
theorem unmapFpage_keeps_iff (hflush : u.FlushesOwn) (fpage : Fpage) (flush : Bool) (pt : PageTable)
    (m : μ) :
    ∃ fuel x, (∀ n, u.unmapFpage fpage flush false (fuel + n) (pt, m) = some x) ∧
      (KeepsKernelMappings u.space pt x.2.1 ↔
        (flush = true → fpage.isRwx = true → 12 ≤ fpage.getSizeLog2 →
          ∀ v, u.space.InKipOrUtcbArea v → pt.lookupMapping v ≠ none →
            ¬u.LosesTranslation pt fpage v)) := by
  rcases Nat.lt_or_ge fpage.getSizeLog2 12 with hsmall | h12
  · have hsize : fpage.getSizeLog2 < pageShift 0 := hsmall
    refine ⟨0, (fpage.setRwx 0, (pt, m)), fun n => ?_, fun _ _ _ h12 => ?_,
      fun _ => keepsKernelMappings_of fun _ _ => rfl⟩
    · rw [unmapFpage, if_pos hsize]
    · omega
  by_cases hall : fpage.isRwx = true ∧ flush = true
  · obtain ⟨hrwx, rfl⟩ := hall
    obtain ⟨x, hends, hdone⟩ := exists_ends_flush (m := m) hrwx hflush.clears h12 pt
    obtain ⟨fuel, hfuel⟩ := unmapFpage_of_ends h12 hends
    refine ⟨fuel, _, hfuel, fun h _ _ _ v hv hmapped hlost => ?_,
      fun h => keepsKernelMappings_of fun v hv => ?_⟩
    · have hkept := h.translation hv
      rw [PageTable.translation, ((hdone v hv.1).1 hlost), PageTable.translation] at hkept
      exact hmapped (Option.map_eq_none_iff.mp hkept.symm)
    · by_cases hlost : u.LosesTranslation pt fpage v
      · have hnone := (hdone v hv.1).1 hlost
        rcases eq_or_ne (pt.lookupMapping v) none with hmapped | hmapped
        · rw [PageTable.translation, PageTable.translation, hnone, hmapped]
          rfl
        · exact absurd hlost (h rfl hrwx h12 v hv hmapped)
      · exact translation_of_view ((hdone v hv.1).2 hlost)
  · have hlow : (fpage.addressWrapped fpage.getSizeLog2).toNat % 2 ^ pageShift (walkPgsize fpage) <
        2 ^ 12 := by
      have hle : pageShift (walkPgsize fpage) ≤ fpage.getSizeLog2 :=
        (findPgsize_le (Nat.le_min.mpr ⟨h12, by decide⟩) _).trans (Nat.min_le_left ..)
      obtain ⟨c, hc⟩ := (Nat.pow_dvd_pow 2 hle).trans (Fpage.first_aligned h12)
      rw [Fpage.toNat_addressWrapped h12, hc, Nat.mul_add_mod]
      exact Nat.lt_of_le_of_lt (Nat.mod_le ..) fpage.lowBits_lt
    have hs : walkPgsize fpage ≤ 7 := walkPgsize_le
    obtain ⟨k, hk⟩ := Nat.exists_eq_add_of_le hs
    obtain ⟨y, hends⟩ : ∃ y, Ends u fpage flush false (walkPgsize fpage)
        (startWalk fpage (min fpage.getSizeLog2 (pageShift (PgSize.sizeMax + 1)))
          (walkPgsize fpage)) (pt, m) y :=
      exists_ends_walk _ (Nat.le_of_eq hk.symm) hk rfl hlow
    obtain ⟨fuel, hfuel⟩ := unmapFpage_of_ends h12 hends
    refine ⟨fuel, _, hfuel, fun _ hf hr => absurd ⟨hr, hf⟩ hall,
      fun _ => keepsKernelMappings_of fun v _ => ?_⟩
    obtain ⟨n, hn⟩ := hends
    refine unmapLoop_keeps (I := fun t => t.translation v = pt.translation v) hall ?_ ?_ (hn 0)
    · intro c st hfp hself hst
      rw [hflush.keeps c st v (by rwa [hfp, hself]), hst]
    · rfl

theorem flushAlone_eq {c : FlushArgs} {st : PageTable × Unit} : (flushAlone c st).2.1 =
    if !c.unmapSelf then st.1
    else if c.fp.isRwx then st.1.clear c.fPg c.fHwpgsize false
    else if c.fp.isWrite then
      st.1.set c.fPg { st.1.get c.fPg with low := (st.1.get c.fPg).low &&& ~~~4 }
    else st.1 := by
  rw [flushAlone]
  split_ifs
  all_goals rfl

/-- The write right is no part of a translation. -/
theorem translation_set_low :
    (pt.set q { pt.get q with low := (pt.get q).low &&& ~~~4 }).translation v =
      pt.translation v := by
  have hphys : ∀ low : BitVec 56,
      (low &&& ~~~4).extractLsb' 6 24 = low.extractLsb' 6 24 := by
    intro low
    refine BitVec.eq_of_getLsbD_eq fun i hi => ?_
    simp only [BitVec.getLsbD_extractLsb', BitVec.getLsbD_and, BitVec.getLsbD_not]
    interval_cases i <;> simp
  have hget : ∀ p, (pt.set q { pt.get q with low := (pt.get q).low &&& ~~~4 }).get p = pt.get p ∨
      p = q ∧ (pt.set q { pt.get q with low := (pt.get q).low &&& ~~~4 }).get p =
        { pt.get p with low := (pt.get p).low &&& ~~~4 } := by
    intro p
    by_cases hp : p = q
    · subst hp
      exact .inr ⟨rfl, PgOp.get_set_self⟩
    · exact .inl (PgOp.get_set_of_ne hp)
  have hlook : (pt.set q { pt.get q with low := (pt.get q).low &&& ~~~4 }).lookupMapping v =
      pt.lookupMapping v := by
    refine lookupFrom_eq_of_kinds (fun p k => ?_) _ _
    rcases hget p with hp | ⟨-, hp⟩
    · rw [hp]
      exact ⟨rfl, rfl⟩
    · rw [hp]
      exact ⟨rfl, rfl⟩
  rw [PageTable.translation, PageTable.translation, hlook]
  refine Option.map_congr fun x _ => ?_
  rcases hget x.1 with hp | ⟨-, hp⟩
  · rw [hp]
  · rw [hp, Pgent.address, Pgent.address, Pgent.physAddr, Pgent.physAddr, hphys]

/-- A space with its kernel interface page at `0x1000` and its UTCBs at `0x20000`. -/
def withAreas : Unmapper Unit :=
  { alone with space := { Space.zero with kipArea := ⟨0x10c0⟩, utcbArea := ⟨0x200c0⟩ } }

theorem flushesOwn_withAreas : withAreas.FlushesOwn where
  clears := clearsEntry_alone
  keeps c st v hno := by
    have hflush : (withAreas.mdbFlush c st).2.1 = _ := flushAlone_eq
    rw [hflush]
    split_ifs with hself hrwx
    · rfl
    · exact absurd ⟨hrwx, by simpa using hself⟩ hno
    · exact translation_set_low
    · rfl

/-- A flush of the page of 16 KB behind the kernel interface page keeps it. -/
theorem exists_kernel_kept : ∃ fuel x,
    withAreas.unmapFpage ⟨0x40e7⟩ true false fuel (sampleTable4k, ()) = some x ∧
      KeepsKernelMappings withAreas.space sampleTable4k x.2.1 := by
  obtain ⟨fuel, x, hrun, hiff⟩ := unmapFpage_keeps_iff flushesOwn_withAreas ⟨0x40e7⟩ true
    sampleTable4k ()
  refine ⟨fuel, x, hrun 0, hiff.mpr fun _ _ _ v hv _ hlost => ?_⟩
  have harea : v.toNat < 0x4000 ∨ 0x20000 ≤ v.toNat := by
    rcases hv.2 with hv | hv
    · rw [Fpage.addresses_eq (by decide) (by decide)] at hv
      exact .inl (Nat.lt_trans hv.2 (by decide))
    · rw [Fpage.addresses_eq (by decide) (by decide)] at hv
      exact .inr hv.1
  obtain ⟨-, ⟨-, ⟨hin, hin'⟩, -⟩ | ⟨w, -, ⟨hw, hw'⟩, heq, -⟩⟩ := hlost
  · change 0x4000 ≤ v.toNat at hin
    change v.toNat < 0x8000 at hin'
    omega
  · change 0x4000 ≤ w.toNat at hw
    change w.toNat < 0x8000 at hw'
    have hpage : SamePage 1 0x4000 w := by
      change w.toNat % 2 ^ 41 / 2 ^ 14 = 1
      omega
    have h1 : walkPgsize ⟨0x40e7⟩ = 1 := by decide
    rw [h1] at heq
    -- the page is not the first one of its group
    have hshare := PgOp.entryPtr_eq_of_lt heq (by decide) (by decide)
    rw [entryPtr_congr hpage (by decide) (by decide), entryPtr_congr hpage le_rfl (by decide)]
      at hshare
    exact absurd hshare (by decide)

/-- A flush of the 16 KB that have the kernel interface page takes it. -/
theorem exists_kernel_lost : ∃ x,
    withAreas.unmapFpage ⟨0xe7⟩ true false 20 (sampleTable4k, ()) = some x ∧
      ¬KeepsKernelMappings withAreas.space sampleTable4k x.2.1 := by
  have hrun : (withAreas.unmapFpage ⟨0xe7⟩ true false 20 (sampleTable4k, ())).map
      (fun x => x.2.1.lookupMapping 0x1000) = some none := by decide +kernel
  obtain ⟨x, hx, hnone⟩ := Option.map_eq_some_iff.mp hrun
  refine ⟨x, hx, fun h => ?_⟩
  have harea : withAreas.space.InKipOrUtcbArea 0x1000 := by
    refine ⟨by decide, .inl ?_⟩
    rw [Fpage.addresses_eq (by decide) (by decide)]
    exact ⟨by decide, by decide⟩
  have hlook : sampleTable4k.lookupMapping 0x1000 = some (entryPtr 0x1000 0, 0) := by
    decide +kernel
  have hkept := h.translation harea
  rw [PageTable.translation, PageTable.translation, hnone, hlook] at hkept
  cases hkept

end Unmapper

end L4Thread
