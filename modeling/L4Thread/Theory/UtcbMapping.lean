import L4Thread.Kernel.Boot
import L4Thread.Theory.AddMapping
import L4Thread.Theory.Kmem
import L4Thread.Theory.Wp

/-!
# UTCB pages in the page table

The kernel's view of a space has a list of the UTCB pages that are mapped and their frames. A new
space has a page table with the kernel interface page; `allocate_utcb` looks UTCBs up in it and
maps their pages there. Both give the same kernel addresses over any run.
-/

namespace L4Thread

open PageTable TrapM Kernel

variable {pt : PageTable} {s : KState} {sp : SpacePtr} {kip loc v : Word} {page : Nat}
  {ptab : PgPtr → BitVec 56}

/-- A page of kernel memory. -/
structure IsFrame (page : Nat) : Prop where
  lower : asKsegStart.toNat ≤ page
  upper : page < asKsegStart.toNat + 2 ^ 29
  aligned : pageSize ∣ page

/-- The page that is mapped for UTCBs. -/
def utcbPage (page : Nat) : Addition :=
  ⟨0, virtToPhys (BitVec.ofNat 64 page), PgSize.size4k, true, false⟩

/-- The page table holds the UTCB pages of the space. -/
structure HoldsUtcbs (kip : Word) (c : Space) (pt : PageTable) : Prop where
  tidy : pt.Tidy
  pages : ∀ v, v.toNat < 2 ^ 41 → ¬SamePage PgSize.size4k kip v →
    pt.pages v = (c.utcbPages.lookup (pageOf v.toNat)).map fun page => (utcbPage page).page
  frames : ∀ m ∈ c.utcbPages, IsFrame m.2

/-- The free memory is inside the kernel's segment. -/
def InKseg (k : Kmem) : Prop :=
  ∀ a ∈ k.freeList, asKsegStart.toNat ≤ a ∧ a < asKsegStart.toNat + 2 ^ 29

theorem samePage_iff_pageOf (hv : v.toNat < 2 ^ 41) (hloc : loc.toNat < 2 ^ 41) :
    SamePage PgSize.size4k loc v ↔ pageOf v.toNat = pageOf loc.toNat := by
  have hshift : 2 ^ pageShift PgSize.size4k = 4096 := rfl
  rw [SamePage, hshift, pageOf, pageOf, pageSize, Nat.mod_eq_of_lt hv, Nat.mod_eq_of_lt hloc]
  omega

namespace IsFrame

/-- The physical address of a page of kernel memory. -/
theorem toNat_virtToPhys (h : IsFrame page) :
    (virtToPhys (BitVec.ofNat 64 page)).toNat = page - asKsegStart.toNat := by
  obtain ⟨hlower, hupper, -⟩ := h
  have hk : asKsegStart.toNat = 0xffffffff80000000 := rfl
  rw [virtToPhys, BitVec.toNat_sub, BitVec.toNat_ofNat]
  omega

/-- The frame number of the page loses nothing. -/
theorem toNat_frame (h : IsFrame page) :
    (virtToPhys (BitVec.ofNat 64 page)).toNat % 2 ^ 36 / 2 ^ 12 * 2 ^ 12 =
      (virtToPhys (BitVec.ofNat 64 page)).toNat := by
  have hphys := h.toNat_virtToPhys
  obtain ⟨hlower, hupper, c, hc⟩ := h
  have hk : asKsegStart.toNat = 0xffffffff80000000 := rfl
  rw [show pageSize = 4096 from rfl] at hc
  rw [hphys]
  omega

/-- A UTCB in the page. -/
theorem physToVirt_eq (h : IsFrame page) {w : Word}
    (hw : w.toNat = (virtToPhys (BitVec.ofNat 64 page)).toNat + v.toNat % pageSize) :
    (physToVirt w).toNat = page + v.toNat % pageSize := by
  have hphys := h.toNat_virtToPhys
  obtain ⟨hlower, hupper, -⟩ := h
  have hk : asKsegStart.toNat = 0xffffffff80000000 := rfl
  have hmod := Nat.mod_lt v.toNat (show 0 < pageSize by decide)
  have hsize : pageSize = 4096 := rfl
  rw [physToVirt, BitVec.toNat_add, hw, hphys]
  omega

/-- A UTCB in a page that was just allocated. -/
theorem toNat_add (h : IsFrame page) :
    (BitVec.ofNat 64 page + (v &&& (pageSizeBytes PgSize.size4k - 1))).toNat =
      page + v.toNat % pageSize := by
  have hoff : (v &&& (pageSizeBytes PgSize.size4k - 1)).toNat = v.toNat % pageSize :=
    Mask.toNat_and_low (n := 12) (by decide)
  obtain ⟨hlower, hupper, -⟩ := h
  have hk : asKsegStart.toNat = 0xffffffff80000000 := rfl
  have hmod := Nat.mod_lt v.toNat (show 0 < pageSize by decide)
  have hsize : pageSize = 4096 := rfl
  rw [BitVec.toNat_add, BitVec.toNat_ofNat, hoff]
  omega

end IsFrame

/-- A page that is allocated is one of kernel memory. -/
theorem isFrame_of_alloc {k k' : Kmem} {alignment mask : Nat} (hk : InKseg k)
    (h : k.allocAligned pageSize alignment mask = some (page, k')) : IsFrame page ∧ InKseg k' := by
  have hperm := Kmem.allocAligned_perm h (by decide)
  have hmem : page ∈ k.freeList := by
    refine hperm.mem_iff.2 (List.mem_append_left _ ?_)
    rw [Kmem.chunks]
    exact List.mem_map.2 ⟨0, by decide, rfl⟩
  have hdvd : pageSize ∣ page := by
    have halign := (Kmem.allocWhere_perm h (by decide)).1
    rw [Bool.and_eq_true] at halign
    refine Nat.dvd_of_mod_eq_zero ?_
    rw [show pageSize = 2 ^ 12 from rfl, ← Nat.and_two_pow_sub_one_eq_mod]
    exact beq_iff_eq.1 halign.2
  exact ⟨⟨(hk page hmem).1, (hk page hmem).2, hdvd⟩,
    fun a ha => hk a (hperm.mem_iff.2 (List.mem_append_right _ ha))⟩

/-! ## One call -/

theorem size_utcbPage : (utcbPage page).size = PgSize.size4k := rfl

/-- A UTCB whose page is mapped. -/
theorem HoldsUtcbs.mapped {c : Space} (h : HoldsUtcbs kip c pt) (hloc : loc.toNat < 2 ^ 41)
    (hkip : ¬SamePage PgSize.size4k kip loc)
    (hpage : c.utcbPages.lookup (pageOf loc.toNat) = some page) :
    ∃ pg, pt.Translates (utcbPage page) loc pg ∧ IsFrame page := by
  have hpages := h.pages loc hloc hkip
  rw [hpage, Option.map_some] at hpages
  obtain ⟨pg, htrans⟩ := translates_of_pages (size_utcbPage.trans_le (by decide)) hpages
  obtain ⟨before, behind, hsplit, -⟩ := List.lookup_eq_some_iff.1 hpage
  refine ⟨pg, htrans, h.frames (pageOf loc.toNat, page) ?_⟩
  rw [hsplit]
  exact List.mem_append_right _ (List.mem_cons_self ..)

/-- `utcb_to_kernel_space` does not add the offset in the page: it is right for the first UTCB of a
page only. -/
theorem HoldsUtcbs.utcbToKernelSpace {c : Space} (h : HoldsUtcbs kip c pt) (hloc : loc.toNat < 2 ^ 41)
    (hkip : ¬SamePage PgSize.size4k kip loc)
    (hpage : c.utcbPages.lookup (pageOf loc.toNat) = some page) :
    (pt.utcbToKernelSpace loc).toNat = page := by
  obtain ⟨pg, htrans, hframe⟩ := h.mapped hloc hkip hpage
  have hpages := h.pages loc hloc hkip
  have hview : pt.view loc = some (pg, PgSize.size4k, pt.get pg) := by
    rw [PageTable.view, htrans.found]
    rfl
  rw [hpage, Option.map_some, PageTable.pages, hview, Option.map_some] at hpages
  have hget := (Prod.mk.inj (Option.some.inj hpages)).2
  have hphys : (pt.get pg).physAddr.toNat = (virtToPhys (BitVec.ofNat 64 page)).toNat := by
    rw [hget, Pgent.toNat_physAddr_mapping]
    exact hframe.toNat_frame
  have hkernel := hframe.physToVirt_eq (v := 0) (w := (pt.get pg).physAddr) hphys
  rw [PageTable.utcbToKernelSpace, htrans.found]
  exact hkernel

/-- A UTCB whose page is not mapped. -/
theorem HoldsUtcbs.not_mapped {c : Space} (h : HoldsUtcbs kip c pt) (hloc : loc.toNat < 2 ^ 41)
    (hkip : ¬SamePage PgSize.size4k kip loc)
    (hnone : c.utcbPages.lookup (pageOf loc.toNat) = none) : pt.lookupMapping loc = none := by
  have hpages := h.pages loc hloc hkip
  rw [hnone, Option.map_none, PageTable.pages, PageTable.view, Option.map_map,
    Option.map_eq_none_iff] at hpages
  exact hpages

/-- Where a page is added for a UTCB, the space holds it. -/
theorem HoldsUtcbs.add {c : Space} (h : HoldsUtcbs kip c pt) (hloc : loc.toNat < 2 ^ 41)
    (hkip : ¬SamePage PgSize.size4k kip loc)
    (hnone : c.utcbPages.lookup (pageOf loc.toNat) = none) (hframe : IsFrame page) :
    HoldsUtcbs kip { c with utcbPages := (pageOf loc.toNat, page) :: c.utcbPages }
      (pt.addMapping ptab ⟨loc, virtToPhys (BitVec.ofNat 64 page), PgSize.size4k, true, false⟩) := by
  obtain ⟨htidy, hpages⟩ := addMapping_spec ptab
    ⟨loc, virtToPhys (BitVec.ofNat 64 page), PgSize.size4k, true, false⟩ h.tidy
  have hold := h.pages loc hloc hkip
  rw [hnone, Option.map_none] at hold
  have hput : pt.pages.add ⟨loc, virtToPhys (BitVec.ofNat 64 page), PgSize.size4k, true, false⟩ =
      pt.pages.put ⟨loc, virtToPhys (BitVec.ofNat 64 page), PgSize.size4k, true, false⟩ := by
    refine if_pos ⟨isPageSizeValid_iff.2 (Nat.zero_le _), ?_⟩
    rintro ⟨x, hx, -⟩
    rw [hold] at hx
    cases hx
  refine ⟨htidy, fun v hv hvkip => ?_, ?_⟩
  · rw [hpages, hput, Pages.put, List.lookup_cons]
    simp only [samePage_iff_pageOf hv hloc]
    split
    · next hsame =>
      rw [beq_iff_eq.2 hsame]
      rfl
    · next hother =>
      rw [beq_eq_false_iff_ne.2 hother]
      exact h.pages v hv hvkip
  · intro m hm
    rcases List.mem_cons.1 hm with rfl | hm
    · exact hframe
    · exact h.frames m hm

/-- The two views of a call. -/
theorem wp_allocateUtcb_holds (ptab : PgPtr → BitVec 56) (h : HoldsUtcbs kip (s.space sp) pt)
    (hk : InKseg s.kmem) (hloc : loc.toNat < 2 ^ 41) (hkip : ¬SamePage PgSize.size4k kip loc) :
    wp (fun _ => True) (allocateUtcb (some sp) loc)
      (fun u t => InKseg t.kmem ∧ ∃ page, u = .user (pt.allocateUtcb ptab page loc).1.toNat ∧
        HoldsUtcbs kip (t.space sp) (pt.allocateUtcb ptab page loc).2) s := by
  rw [Kernel.allocateUtcb]
  simp only [wp_bind, derefSpace, wp_pure, wp_gets]
  split
  · next page hpage =>
    obtain ⟨pg, htrans, hframe⟩ := h.mapped hloc hkip hpage
    have hcall : pt.allocateUtcb ptab 0 loc =
        (physToVirt (pt.phys pg PgSize.size4k loc), pt) := by
      rw [PageTable.allocateUtcb, htrans.found]
      rfl
    refine ⟨hk, 0, ?_, hcall ▸ h⟩
    rw [hcall]
    refine congrArg UtcbPtr.user (hframe.physToVirt_eq ?_).symm
    refine htrans.phys.trans ?_
    exact congrArg (· + loc.toNat % pageSize) hframe.toNat_frame
  · next hnone =>
    rw [wp_bind, wp_gets]
    split
    · trivial
    · next page kmem halloc =>
      obtain ⟨hframe, hkmem⟩ := isFrame_of_alloc hk halloc
      simp only [wp_bind, wp_modKmem, zeroUtcbPage, wp_modify, wp_modSpace, wp_pure]
      refine ⟨hkmem, BitVec.ofNat 64 page, ?_, ?_⟩
      · rw [PageTable.allocateUtcb, h.not_mapped hloc hkip hnone]
        exact congrArg UtcbPtr.user hframe.toNat_add.symm
      · rw [PageTable.allocateUtcb, h.not_mapped hloc hkip hnone, Function.update_self]
        exact h.add hloc hkip hnone hframe

/-- The UTCB of a call is in the page that the space has then; pages that it had stay. -/
theorem wp_allocateUtcb_page : wp (fun _ => True) (allocateUtcb (some sp) loc)
    (fun u t => (∃ page, (t.space sp).utcbPages.lookup (pageOf loc.toNat) = some page ∧
        u = .user (page + loc.toNat % pageSize)) ∧
      ∀ key page, (s.space sp).utcbPages.lookup key = some page →
        (t.space sp).utcbPages.lookup key = some page) s := by
  rw [Kernel.allocateUtcb]
  simp only [wp_bind, derefSpace, wp_pure, wp_gets]
  split
  · next page hpage => exact ⟨⟨page, hpage, rfl⟩, fun key page h => h⟩
  · next hnone =>
    rw [wp_bind, wp_gets]
    split
    · trivial
    · next page kmem halloc =>
      simp only [wp_bind, wp_modKmem, zeroUtcbPage, wp_modify, wp_modSpace, wp_pure]
      rw [Function.update_self]
      refine ⟨⟨page, List.lookup_cons_self, rfl⟩, fun key page' h => ?_⟩
      have hne : key ≠ pageOf loc.toNat := by
        rintro rfl
        rw [hnone] at h
        cases h
      rw [List.lookup_cons, beq_eq_false_iff_ne.2 hne]
      exact h

/-! ## Runs -/

/-- Some calls, in the kernel's view. -/
def allocateUtcbs (sp : SpacePtr) : List Word → Kernel (List UtcbPtr)
  | [] => pure []
  | loc :: locs => do
    let u ← allocateUtcb (some sp) loc
    let us ← allocateUtcbs sp locs
    pure (u :: us)

/-- Some calls on a page table, with the pages that the allocator has for them. -/
def PageTable.allocateUtcbs (ptab : PgPtr → BitVec 56) :
    List (Word × Word) → PageTable → List Word × PageTable
  | [], pt => ([], pt)
  | (page, loc) :: calls, pt =>
    let r := pt.allocateUtcb ptab page loc
    let rs := allocateUtcbs ptab calls r.2
    (r.1 :: rs.1, rs.2)

theorem wp_allocateUtcbs_holds (ptab : PgPtr → BitVec 56) (locs : List Word)
    (h : HoldsUtcbs kip (s.space sp) pt) (hk : InKseg s.kmem)
    (hlocs : ∀ loc ∈ locs, loc.toNat < 2 ^ 41 ∧ ¬SamePage PgSize.size4k kip loc) :
    wp (fun _ => True) (allocateUtcbs sp locs)
      (fun us t => ∃ pages : List Word, pages.length = locs.length ∧
        us = (pt.allocateUtcbs ptab (pages.zip locs)).1.map (fun w => .user w.toNat) ∧
        HoldsUtcbs kip (t.space sp) (pt.allocateUtcbs ptab (pages.zip locs)).2) s := by
  induction locs generalizing s pt with
  | nil => exact ⟨[], rfl, rfl, h⟩
  | cons loc locs ih =>
    obtain ⟨hloc, hkip⟩ := hlocs loc (List.mem_cons_self ..)
    rw [allocateUtcbs, wp_bind]
    refine wp_mono (wp_allocateUtcb_holds ptab h hk hloc hkip) fun u t hcall => ?_
    obtain ⟨hkt, page, hu, hpt⟩ := hcall
    rw [wp_bind]
    refine wp_mono (ih hpt hkt fun l hl => hlocs l (List.mem_cons_of_mem _ hl)) fun us t' hrun => ?_
    obtain ⟨pages, hlen, hus, hpt'⟩ := hrun
    refine ⟨page :: pages, congrArg (· + 1) hlen, ?_, hpt'⟩
    rw [hu, hus]
    rfl

/-- Every UTCB of a run is in a page that the space has at its end. -/
theorem wp_allocateUtcbs_page (locs : List Word) : wp (fun _ => True) (allocateUtcbs sp locs)
    (fun us t => (∀ x ∈ locs.zip us, ∃ page,
        (t.space sp).utcbPages.lookup (pageOf x.1.toNat) = some page ∧
          x.2 = .user (page + x.1.toNat % pageSize)) ∧
      ∀ key page, (s.space sp).utcbPages.lookup key = some page →
        (t.space sp).utcbPages.lookup key = some page) s := by
  induction locs generalizing s with
  | nil => exact ⟨fun x hx => absurd hx List.not_mem_nil, fun key page h => h⟩
  | cons loc locs ih =>
    rw [allocateUtcbs, wp_bind]
    refine wp_mono wp_allocateUtcb_page fun u t hcall => ?_
    obtain ⟨⟨page, hpage, hu⟩, hkeep⟩ := hcall
    rw [wp_bind]
    refine wp_mono ih fun us t' hrun => ?_
    obtain ⟨hrest, hkeep'⟩ := hrun
    refine ⟨fun x hx => ?_, fun key p h => hkeep' key p (hkeep key p h)⟩
    rcases List.mem_cons.1 hx with rfl | hx
    · exact ⟨page, hkeep' _ page hpage, hu⟩
    · exact hrest x hx

/-! ## A new space -/

/-- `space_t::init` maps the kernel interface page. -/
theorem holdsUtcbs_mapKip (ptab : PgPtr → BitVec 56) {c : Space} (area : Fpage) (page : Word)
    (h : c.utcbPages = []) :
    HoldsUtcbs area.getAddress c (PageTable.zero.mapKip ptab area page) := by
  obtain ⟨htidy, hpages⟩ := addMapping_spec ptab
    ⟨area.getAddress, virtToPhys page, PgSize.size4k, false, false⟩ tidy_zero
  refine ⟨htidy, fun v _ hvkip => ?_, fun m hm => ?_⟩
  · rw [mapKip, hpages, Pages.add]
    split
    · rw [Pages.put, if_neg hvkip, h]
      rfl
    · rw [h]
      rfl
  · rw [h] at hm
    cases hm

/-- The user and the kernel have the UTCB at the same physical address. -/
structure SharesUtcb (pt : PageTable) (loc : Word) (u : UtcbPtr) (pg : PgPtr) : Prop where
  found : pt.lookupMapping loc = some (pg, PgSize.size4k)
  writable : (pt.get pg).isWritable = true
  user : (pt.get pg).rid = 0
  kernel : u = .user (physToVirt (pt.phys pg PgSize.size4k loc)).toNat

/-- Sixteen free chunks, before the boot. -/
def freshKernel : KState := .zero ⟨0xffffffff80100000, 0x4000, false, false, 0, 0⟩

end L4Thread
