import L4Thread.Theory.UtcbArea
import Mathlib.Order.CompletePartialOrder

/-!
# The areas of spaces

The checks of space control are made of comparisons of wrapped addresses. On the flexpages that they
accept, none of the sums wraps, so that the areas of every initialised space are ranges of the user
area that have no address in common.
-/

namespace L4Thread

open TrapM Kernel

variable {s t : KState} {b : SpaceControlArgs} {kip utcb f g : Fpage} {r : Bool}

/-! ## Ranges -/

/-- The addresses of a flexpage. -/
def Fpage.range (f : Fpage) : Set Nat :=
  Set.Ico f.getAddress.toNat (f.getAddress.toNat + f.getSize.toNat)

def userArea : Set Nat := Set.Iic userAreaEnd.toNat

/-- Two areas of a space: disjoint parts of the user area, with the sizes that the kernel interface
page asks for. -/
structure AreasPlaced (kip utcb : Fpage) : Prop where
  kip_user : kip.range ⊆ userArea
  utcb_user : utcb.range ⊆ userArea
  disjoint : Disjoint kip.range utcb.range
  kip_size : 2 ^ kipAreaSizeLog2 ≤ kip.getSize.toNat
  utcb_size : utcbMinimalSize ≤ utcb.getSize.toNat

/-- The end of a flexpage whose first and last address are in the user area. -/
theorem Fpage.end_le (h : Space.isUserAreaFpage f) :
    f.getAddress.toNat + f.getSize.toNat ≤ 2 ^ 40 := by
  have hpos : 0 < f.getSize.toNat := by
    rw [f.toNat_getSize]
    exact Nat.two_pow_pos _
  have hle := f.toNat_getSize_le
  simp only [Space.isUserAreaFpage, Space.isUserArea, Bool.and_eq_true, decide_eq_true_eq] at h
  simp only [userAreaEnd] at h
  bv_omega

theorem Fpage.range_subset (h : Space.isUserAreaFpage f) : f.range ⊆ userArea := by
  intro a ha
  have hend := f.end_le h
  have hlt : a < f.getAddress.toNat + f.getSize.toNat := ha.2
  change a ≤ userAreaEnd.toNat
  rw [show userAreaEnd.toNat = 2 ^ 40 - 1 from rfl]
  omega

/-- In the user area the overlap test is exact. -/
theorem Fpage.disjoint_iff (hf : Space.isUserAreaFpage f) (hg : Space.isUserAreaFpage g) :
    Disjoint f.range g.range ↔ f.isOverlapping g = false := by
  have hfend := f.end_le hf
  have hgend := g.end_le hg
  have hfsize : 0 < f.getSize.toNat := by
    rw [f.toNat_getSize]
    exact Nat.two_pow_pos _
  have hgsize : 0 < g.getSize.toNat := by
    rw [g.toNat_getSize]
    exact Nat.two_pow_pos _
  have hsum : ∀ {x y : Word}, x.toNat + y.toNat ≤ 2 ^ 40 → (x + y).toNat = x.toNat + y.toNat := by
    intro x y h
    rw [BitVec.toNat_add]
    exact Nat.mod_eq_of_lt (by omega)
  rw [isOverlapping]
  split
  · rename_i hlt
    rw [decide_eq_false_iff_not, BitVec.lt_def, hsum hgend]
    rw [BitVec.lt_def] at hlt
    constructor
    · intro hdis hover
      have hmem : f.getAddress.toNat ∈ f.range := ⟨le_rfl, by omega⟩
      exact Set.disjoint_left.mp hdis hmem ⟨by omega, hover⟩
    · intro hover
      refine Set.disjoint_left.mpr fun a ha ha' => hover ?_
      exact lt_of_le_of_lt ha.1 ha'.2
  · rename_i hle
    rw [decide_eq_false_iff_not, BitVec.lt_def, hsum hfend]
    rw [BitVec.lt_def] at hle
    constructor
    · intro hdis hover
      have hmem : g.getAddress.toNat ∈ g.range := ⟨le_rfl, by omega⟩
      exact Set.disjoint_left.mp hdis ⟨by omega, hover⟩ hmem
    · intro hover
      refine Set.disjoint_left.mpr fun a ha ha' => hover ?_
      exact lt_of_le_of_lt ha'.1 ha.2

/-- What passes the checks of `SYS_SPACE_CONTROL` is placed. -/
theorem AreasPlaced.of_checks
    (hutcb : ¬(utcb.getSize < BitVec.ofNat 64 utcbMinimalSize ∨ !Space.isUserAreaFpage utcb))
    (hkip : ¬(kip.getSize < (1 : Word) <<< kipAreaSizeLog2 ∨ !Space.isUserAreaFpage kip ∨
      kip.isOverlapping utcb)) : AreasPlaced kip utcb := by
  simp only [not_or, BitVec.not_lt, Bool.not_eq_true', Bool.not_eq_false, Bool.not_eq_true,
    BitVec.le_def] at hutcb hkip
  obtain ⟨hksize, hkuser, hover⟩ := hkip
  exact ⟨kip.range_subset hkuser, utcb.range_subset hutcb.2,
    (Fpage.disjoint_iff hkuser hutcb.2).mpr hover, hksize, hutcb.1⟩

/-! ## The call -/

/-- A call that succeeds initialises a space or changes nothing; one that fails changes no space. -/
theorem sysSpaceControl_effect (h : sysSpaceControl b s = .ok (r, t)) :
    t.space = s.space ∨ r = true ∧ ∃ sp, (s.space sp).isInitialized = false ∧
      t.areas = Function.update s.areas sp (b.kipArea, b.utcbArea) ∧
      AreasPlaced b.kipArea b.utcbArea := by
  suffices wp (fun _ => True) (sysSpaceControl b) (fun r t => t.space = s.space ∨ r = true ∧
      ∃ sp, (s.space sp).isInitialized = false ∧
        t.areas = Function.update s.areas sp (b.kipArea, b.utcbArea) ∧
        AreasPlaced b.kipArea b.utcbArea) s from
    wp_iff_ok.mp this r t h
  have hfail : ∀ err, wp (fun _ => True) (failWith err) (fun r t => t.space = s.space ∨ r = true ∧
      ∃ sp, (s.space sp).isInitialized = false ∧
        t.areas = Function.update s.areas sp (b.kipArea, b.utcbArea) ∧
        AreasPlaced b.kipArea b.utcbArea) s := fun _ =>
    keepsIdent_failWith.wp fun _ _ ht => .inl (congrArg Ident.space ht)
  rw [wp_sysSpaceControl]
  split
  · exact hfail _
  split
  · exact hfail _
  split
  · exact hfail _
  refine ⟨fun _ => trivial, fun sp hsp => ?_⟩
  split_ifs with hinit hutcb hkip
  · exact .inl rfl
  · exact hfail _
  · exact hfail _
  · refine .inr ⟨rfl, sp, by simpa using hinit, ?_, .of_checks hutcb hkip⟩
    funext sp'
    rcases eq_or_ne sp' sp with rfl | hne
    · simp [KState.areas]
    · simp [KState.areas, hne]

/-! ## All runs -/

/-- The areas of every initialised space are placed. -/
def KState.AreasPlaced (s : KState) : Prop :=
  ∀ sp, (s.space sp).isInitialized → L4Thread.AreasPlaced (s.space sp).kipArea (s.space sp).utcbArea

theorem KState.AreasPlaced.congr (h : s.AreasPlaced) (ht : t.areas = s.areas) : t.AreasPlaced := by
  intro sp hinit
  have hsp := congrFun ht sp
  simp only [KState.areas, Prod.mk.injEq] at hsp
  simp only [Space.isInitialized, hsp.1] at hinit
  rw [hsp.1, hsp.2]
  exact h sp hinit

theorem KState.AreasPlaced.update {sp : SpacePtr} (h : s.AreasPlaced)
    (ht : t.areas = Function.update s.areas sp (kip, utcb))
    (hnew : kip.isNilFpage = false → L4Thread.AreasPlaced kip utcb) : t.AreasPlaced := by
  intro sp' hinit
  have hsp := congrFun ht sp'
  rcases eq_or_ne sp' sp with rfl | hne
  · rw [Function.update_self] at hsp
    simp only [KState.areas, Prod.mk.injEq] at hsp
    simp only [Space.isInitialized, hsp.1, Bool.not_eq_true'] at hinit
    rw [hsp.1, hsp.2]
    exact hnew hinit
  · rw [Function.update_of_ne hne] at hsp
    simp only [KState.areas, Prod.mk.injEq] at hsp
    simp only [Space.isInitialized, hsp.1] at hinit
    rw [hsp.1, hsp.2]
    exact h sp' hinit

theorem KState.AreasPlaced.spaceControl (h : s.AreasPlaced)
    (hrun : sysSpaceControl b s = .ok (r, t)) : t.AreasPlaced := by
  rcases sysSpaceControl_effect hrun with heq | ⟨-, sp, -, hareas, hplaced⟩
  · refine h.congr ?_
    funext sp
    simp only [KState.areas, heq]
  · exact h.update hareas fun _ => hplaced

theorem KState.Step.areasPlaced {e : Event} (hstep : s.Step e t) (h : s.AreasPlaced) :
    t.AreasPlaced := by
  have hrun := (KState.step_iff.mp hstep).2
  cases e with
  | threadControl a =>
    obtain ⟨r, u, hr, hu⟩ := bind_eq_ok.mp hrun
    cases hu
    rcases sysThreadControl_areas hr with heq | ⟨-, heq | ⟨-, sp, -, heq⟩⟩
    · exact h.congr heq
    · exact h.congr heq
    · exact h.update heq fun hnil => absurd hnil (by decide)
  | spaceControl b =>
    obtain ⟨r, u, hr, hu⟩ := bind_eq_ok.mp hrun
    cases hu
    exact h.spaceControl hr
  | _ =>
    have hi := hstep.ident rfl
    simp only [KState.ident, Ident.mk.injEq] at hi
    refine h.congr ?_
    funext sp
    simp only [KState.areas, hi.2.1]

theorem areasPlaced_root : AreasPlaced rootKipArea rootUtcbArea := by
  refine .of_checks ?_ ?_ <;> decide

/-- The spaces of the root servers are placed. -/
structure BootPlaced (tids : List ThreadId) (s : KState) : Prop extends BootMem tids s where
  placed : s.AreasPlaced

theorem BootPlaced.create {tids : List ThreadId} {tid pager : ThreadId} {cfg : BootConfig}
    (h : BootPlaced tids s) (htid : tid ∈ rootTids) (hnot : tid ∉ tids) :
    wp (fun _ => True) (createRootServer tid rootServerTid pager cfg)
      (fun _ t => BootPlaced (tid :: tids) t) s := by
  rw [wp_iff_ok]
  intro sp t ht
  obtain ⟨-, hareas⟩ := wp_iff_ok.mp (wp_createRootServer_areas h.inv) sp t ht
  exact ⟨wp_iff_ok.mp (h.toBootMem.create htid hnot) sp t ht,
    h.placed.update hareas fun _ => areasPlaced_root⟩

theorem BootPlaced.of_idle (hfree : s.kmem.freeList.Nodup)
    (hnone : ∀ i, (s.tcb (.t i)).space = none) (hidle : (s.tcb .idle).space = some .idle)
    (hzero : s.space = fun _ => .zero) : BootPlaced [] s := by
  refine ⟨.of_idle hfree hnone hidle, fun sp hinit => ?_⟩
  rw [hzero] at hinit
  cases hinit

theorem KState.AreasPlaced.of_booted (h : s.Booted) : s.AreasPlaced := by
  obtain ⟨cfg, h⟩ := h
  obtain ⟨tids, hs⟩ := boot_rule (I := BootPlaced)
    (fun _ hfree hnone hidle hzero => .of_idle hfree hnone hidle hzero)
    (fun _ _ _ _ htid hnot hs => hs.create htid hnot)
    (fun _ _ _ _ _ hs => ⟨⟨hs.inv, hs.absent⟩, hs.placed⟩) h
  exact hs.placed

/-- In every run the areas of the initialised spaces are placed; a call of space control does not
change the areas of an initialised space, and changes no space if it fails. -/
theorem reachable_areasPlaced (h : Reachable (fun _ _ => True) s) :
    s.AreasPlaced ∧ ∀ b r t, sysSpaceControl b s = .ok (r, t) →
      t.AreasPlaced ∧ (∀ sp, (s.space sp).isInitialized → t.areas sp = s.areas sp) ∧
        (r = false → t.space = s.space) := by
  have hs : s.AreasPlaced :=
    h.invariant (fun _ hboot => .of_booted hboot) fun _ _ _ hs _ hstep => hstep.areasPlaced hs
  refine ⟨hs, fun b r t hrun => ⟨hs.spaceControl hrun, fun sp hinit => ?_, fun hr => ?_⟩⟩
  · rcases sysSpaceControl_effect hrun with heq | ⟨-, sp', hnot, hareas, -⟩
    · simp only [KState.areas, heq]
    · rw [hareas, Function.update_of_ne]
      rintro rfl
      rw [hnot] at hinit
      cases hinit
  · rcases sysSpaceControl_effect hrun with heq | ⟨htrue, -⟩
    · exact heq
    · rw [hr] at htrue
      cases htrue

/-- `sigma0` creates a thread in a space of its own and gives it its areas. -/
theorem exists_areasPlaced : ∃ s sp, Reachable (fun _ _ => True) s ∧
    (s.tcb (getTcb (sampleTid 0))).space = some sp ∧ (s.space sp).isInitialized ∧
    s.AreasPlaced := by
  obtain ⟨s, hs, hP⟩ := exists_reachable (fun _ _ => True)
    [.idle, .resume,
      .threadControl ⟨sampleTid 0, sampleTid 0, rootServerTid, .nilthread, noLocation32⟩,
      .spaceControl ⟨sampleTid 0, 0, rootKipArea, rootUtcbArea⟩]
    (fun s => decide ((s.tcb (getTcb (sampleTid 0))).space = some (.heap 0x10c000) ∧
      (s.space (.heap 0x10c000)).isInitialized)) (by decide +kernel)
  obtain ⟨hspace, hinit⟩ := of_decide_eq_true hP
  exact ⟨s, _, hs, hspace, hinit, (reachable_areasPlaced hs).1⟩

end L4Thread
