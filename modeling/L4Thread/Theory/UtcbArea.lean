import L4Thread.Theory.Spaces

/-!
# UTCB locations

The UTCB of an activated thread lies inside the UTCB area of its space, at an aligned address. Thread
control checks the location it is given, but by a comparison that wraps around the address space and
without the alignment; and it does not check the stored location when it activates a thread with an
unchanged location or takes it to another space. In the runs whose calls supply what is not checked,
containment holds.
-/

namespace L4Thread

open TrapM Kernel

variable {s t : KState} {a : ThreadControlArgs} {p q : TcbPtr} {f : Fpage} {u : Word}

/-! ## Locations in an area -/

/-- The range of a UTCB at `u` lies inside the flexpage and does not wrap. -/
def Fpage.Contains (f : Fpage) (u : Word) : Prop :=
  f.getAddress.toNat ≤ u.toNat ∧ u.toNat + sizeofUtcb ≤ f.getAddress.toNat + f.getSize.toNat ∧
    u.toNat + sizeofUtcb ≤ 2 ^ 64

/-- The alignment of UTCBs that the kernel interface page advertises. -/
def Aligned (u : Word) : Prop := u.toNat % 2 ^ utcbAlignment = 0

instance : Decidable (f.Contains u) := inferInstanceAs (Decidable (_ ∧ _))

instance : Decidable (Aligned u) := inferInstanceAs (Decidable (_ = _))

/-- The last aligned location, whose range ends where the address space does. -/
def topLocation : Word := BitVec.ofNat 64 (2 ^ 64 - sizeofUtcb)

/-- The flexpages that `SYS_SPACE_CONTROL` accepts as a UTCB area. -/
def Fpage.ValidArea (f : Fpage) : Prop :=
  BitVec.ofNat 64 utcbMinimalSize ≤ f.getSize ∧ Space.isUserAreaFpage f

theorem Fpage.sizeField_lt (f : Fpage) : f.sizeField < 64 := Nat.mod_lt _ (by decide)

theorem Fpage.toNat_getSize (f : Fpage) : f.getSize.toNat = 2 ^ f.sizeField := by
  have hp : 2 ^ f.sizeField < 2 ^ 64 := Nat.pow_lt_pow_right (by decide) f.sizeField_lt
  simpa [getSize, Nat.shiftLeft_eq] using hp

theorem Fpage.toNat_getSize_le (f : Fpage) : f.getSize.toNat ≤ 2 ^ 63 := by
  rw [f.toNat_getSize]
  exact Nat.pow_le_pow_right (by decide) (Nat.le_of_lt_succ f.sizeField_lt)

/-- A valid area ends inside the user area. -/
theorem Fpage.ValidArea.end_le (h : f.ValidArea) :
    f.getAddress.toNat + f.getSize.toNat ≤ 2 ^ 40 := by
  have hle := f.toNat_getSize_le
  obtain ⟨hmin, h⟩ := h
  simp only [Space.isUserAreaFpage, Space.isUserArea, Bool.and_eq_true, decide_eq_true_eq] at h
  simp only [userAreaEnd, utcbMinimalSize] at h hmin
  bv_omega

/-- A valid area is not the complete flexpage, for which no range is checked. -/
theorem Fpage.ValidArea.not_complete (h : f.ValidArea) : f.isCompleteFpage = false := by
  have hmin := h.1
  have hsize := f.toNat_getSize
  rw [BitVec.le_def, hsize] at hmin
  have : f.sizeField ≠ 1 := by
    intro h1
    rw [h1] at hmin
    exact absurd hmin (by decide)
  simp [isCompleteFpage, this]

/-- The check of a location, made safe against wrapping by alignment. -/
theorem Fpage.ValidArea.contains (h : f.ValidArea) (ha : Aligned u) (htop : u ≠ topLocation)
    (hc : f.isRangeInFpage u (u + BitVec.ofNat 64 sizeofUtcb)) : f.Contains u := by
  have hend := h.end_le
  simp only [isRangeInFpage, h.not_complete, Bool.false_or, Bool.and_eq_true,
    decide_eq_true_eq] at hc
  simp only [Aligned, utcbAlignment] at ha
  have htop : u.toNat ≠ 2 ^ 64 - 1024 := fun e => htop (BitVec.eq_of_toNat_eq e)
  simp only [sizeofUtcb, Contains] at hc ⊢
  bv_omega

/-- No aligned location is valid in the area of a space that was not initialised. -/
theorem Fpage.not_inRange_zero (ha : Aligned u) (htop : u ≠ topLocation) :
    isRangeInFpage ⟨0⟩ u (u + BitVec.ofNat 64 sizeofUtcb) = false := by
  have haddr : (Fpage.mk 0).getAddress = 0 := by decide
  have hsize : (Fpage.mk 0).getSize = 1 := by decide
  have hcomp : (Fpage.mk 0).isCompleteFpage = false := by decide
  have htop : u.toNat ≠ 2 ^ 64 - 1024 := fun e => htop (BitVec.eq_of_toNat_eq e)
  simp only [Aligned, utcbAlignment] at ha
  simp only [isRangeInFpage, haddr, hsize, hcomp, Bool.false_or, sizeofUtcb, Bool.and_eq_false_iff,
    decide_eq_false_iff_not]
  right
  bv_omega

/-! ## The areas of all spaces -/

/-- The kernel interface page area and the UTCB area of every space. -/
def KState.areas (s : KState) (sp : SpacePtr) : Fpage × Fpage :=
  ((s.space sp).kipArea, (s.space sp).utcbArea)

abbrev KeepsAreas {α : Type} (x : Kernel α) : Prop := Keeps KState.areas x

section Areas

variable {α : Type} {x : Kernel α} {ptr : SpacePtr} {o : Option SpacePtr} {tid : ThreadId}

@[grind ←] theorem KeepsIdent.areas (h : KeepsIdent x) : KeepsAreas x :=
  h.comp fun i : Ident => fun sp => ((i.space sp).kipArea, (i.space sp).utcbArea)

@[grind ←] theorem keepsAreas_modTcb {f : Tcb → Tcb} : KeepsAreas (modTcb p f) :=
  .modify fun _ => rfl

@[grind ←] theorem keepsAreas_modKmem {f : Kmem → Kmem} : KeepsAreas (modKmem f) :=
  .modify fun _ => rfl

@[grind ←] theorem keepsAreas_zeroUtcbPage {n : Nat} : KeepsAreas (zeroUtcbPage n) :=
  .modify fun _ => rfl

@[grind ←] theorem keepsAreas_modSpace {f : Space → Space}
    (h : ∀ c, (f c).kipArea = c.kipArea ∧ (f c).utcbArea = c.utcbArea) :
    KeepsAreas (modSpace ptr f) := by
  refine .modify fun s => ?_
  funext sp
  rcases eq_or_ne sp ptr with rfl | hsp
  · simp [KState.areas, h]
  · simp [KState.areas, hsp]

@[grind ←] theorem keepsAreas_freeSpace : KeepsAreas (freeSpace ptr) := by
  unfold freeSpace
  grind

@[grind ←] theorem keepsAreas_unmapSpace : KeepsAreas (unmapSpace ptr) := by
  unfold unmapSpace
  grind

@[grind ←] theorem keepsAreas_addTcb : KeepsAreas (addTcb o) := by
  unfold addTcb
  grind

@[grind ←] theorem keepsAreas_removeTcb : KeepsAreas (removeTcb o) := by
  unfold removeTcb
  repeat' with_reducible refine Keeps.bind ?_ fun _ => ?_
  all_goals grind

@[grind ←] theorem keepsAreas_allocateUtcb {u : Word} : KeepsAreas (allocateUtcb o u) := by
  unfold allocateUtcb
  dsimp only
  repeat' first | with_reducible refine Keeps.bind ?_ fun _ => ?_ | split
  all_goals grind

@[grind ←] theorem keepsAreas_activate {n : Notify} : KeepsAreas (activate p n tid) := by
  unfold activate setGlobalId setPager createStartupStack
  repeat' with_reducible refine Keeps.bind ?_ fun _ => ?_
  all_goals grind

@[grind ←] theorem keepsAreas_startThread : KeepsAreas (startThread p tid) := by
  unfold startThread
  grind

@[grind ←] theorem keepsAreas_migrateToSpace : KeepsAreas (migrateToSpace p o) := by
  unfold migrateToSpace
  repeat' first | with_reducible refine Keeps.bind ?_ fun _ => ?_ | split
  all_goals grind

@[grind ←] theorem keepsAreas_threadModify : KeepsAreas (threadModify p a) := by
  unfold threadModify modifyThread modifyUtcbLocation modifySettings modifyPager checkUtcbLocation setPager
    setGlobalId
  repeat' first | with_reducible refine Keeps.bind ?_ fun _ => ?_ | split
  all_goals grind

@[grind ←] theorem keepsAreas_threadDelete : KeepsAreas (threadDelete p) := by
  unfold threadDelete deleteTcb
  repeat' first | with_reducible refine Keeps.bind ?_ fun _ => ?_ | split
  all_goals grind

@[grind ←] theorem keepsAreas_init : KeepsAreas (Kernel.init p tid) := by
  unfold Kernel.init
  grind

@[grind ←] theorem keepsAreas_threadControlInterrupt {irqTid : ThreadId} :
    KeepsAreas (threadControlInterrupt irqTid tid) := by
  unfold threadControlInterrupt createKernelThread
  dsimp only
  repeat' first | with_reducible refine Keeps.bind ?_ fun _ => ?_ | split
  all_goals grind

end Areas

/-- The areas after a creation: those of a new space are cleared. -/
def KState.areasAfter (s : KState) (a : ThreadControlArgs) (A : SpacePtr → Fpage × Fpage) : Prop :=
  A = s.areas ∨ a.destTid = a.spaceTid ∧
    ∃ sp, s.newSpace a = some sp ∧ A = Function.update s.areas sp (⟨0⟩, ⟨0⟩)

theorem wp_newThreadSpace_areas :
    wp (fun _ => True) (newThreadSpace a) (fun _ t => s.areasAfter a t.areas) s := by
  rw [newThreadSpace, wp_ite]
  split
  · exact .inl rfl
  · rename_i heq
    have heq : a.destTid = a.spaceTid := by simpa using heq
    rw [wp_bind]
    refine wp_allocateSpace fun addr kmem halloc => .inr ⟨heq, .heap addr, ?_, ?_⟩
    · rw [KState.newSpace, if_pos heq, halloc, Option.map_some]
    · funext sp
      rcases eq_or_ne sp (.heap addr) with rfl | hsp
      · simp [KState.areas, Space.zero]
      · simp [KState.areas, hsp]

theorem wp_createThread_areas {dest : TcbPtr} :
    wp (fun _ => True) (createThread dest a) (fun _ t => s.areasAfter a t.areas) s := by
  have htail : ∀ t : KState, t.areas = s.areas → t.kmem = s.kmem → wp (fun _ => True) (do
      let space ← newThreadSpace a
      setSpace dest space
      addTcb space
      if !a.pagerTid.isNilthread then startThread dest a.pagerTid)
      (fun _ t => s.areasAfter a t.areas) t := by
    intro t hareas hkmem
    rw [wp_bind]
    refine wp_mono wp_newThreadSpace_areas fun o t1 h1 => ?_
    have hkeep : KeepsAreas (do
        setSpace dest o
        addTcb o
        if !a.pagerTid.isNilthread then startThread dest a.pagerTid) := by
      grind
    refine hkeep.wp fun _ t2 h2 => ?_
    rw [h2]
    rcases h1 with h1 | ⟨heq, sp, hsp, h1⟩
    · exact .inl (h1.trans hareas)
    · refine .inr ⟨heq, sp, ?_, by rw [h1, hareas]⟩
      rw [← hsp, KState.newSpace, KState.newSpace, if_pos heq, if_pos heq, hkmem]
  rw [createThread, wp_bind, createInactive, wp_bind, wp_init, wp_modTcb, wp_ite]
  split
  · rw [setUtcbLocation, wp_bind, wp_modTcb]
    exact htail _ rfl rfl
  · exact htail _ rfl rfl

theorem sysThreadControl_areas {r : Bool} (h : sysThreadControl a s = .ok (r, t)) :
    t.areas = s.areas ∨ s.Creates a ∧ s.areasAfter a t.areas := by
  suffices wp (fun _ => True) (sysThreadControl a)
      (fun _ t => t.areas = s.areas ∨ s.Creates a ∧ s.areasAfter a t.areas) s from
    wp_iff_ok.mp this r t h
  have hkeep : ∀ {x : Kernel Bool}, KeepsAreas x → wp (fun _ => True) x
      (fun _ t => t.areas = s.areas ∨ s.Creates a ∧ s.areasAfter a t.areas) s :=
    fun hx => hx.wp fun _ _ h => .inl h
  have hfail : ∀ err, KeepsAreas (failWith err) := fun err => keepsIdent_failWith.areas
  rw [wp_sysThreadControl]
  split
  · exact hkeep (hfail _)
  · split
    · exact hkeep (hfail _)
    · split
      · refine keepsAreas_threadControlInterrupt.wp fun r t ht => ?_
        split
        · exact .inl ht
        · exact (hfail _).wp fun _ t' ht' => .inl (ht'.trans ht)
      · split
        · exact hkeep (hfail _)
        · split
          · exact hkeep keepsAreas_threadDelete
          · split
            · exact hkeep keepsAreas_threadModify
            · have hacc : s.Accepts a := ⟨by simp_all, by simp_all, by simp_all⟩
              rw [threadCreate, wp_bind]
              refine wp_mono (wp_createCheck_creates hacc (by simp_all) (by simp_all))
                fun o t hpost => ?_
              obtain ⟨ht, hcre⟩ := hpost
              subst ht
              cases o with
              | some err => exact (hfail err).wp fun _ _ h => .inl h
              | none =>
                change wp _ (createThread _ a >>= fun _ => pure true) _ _
                rw [wp_bind]
                exact wp_mono wp_createThread_areas fun _ t' ht' => .inr ⟨hcre rfl, ht'⟩

/-! ## Containment -/

/-- Every space is initialised with a valid UTCB area, or not at all. -/
def KState.AreasValid (s : KState) : Prop :=
  ∀ sp, s.areas sp = (⟨0⟩, ⟨0⟩) ∨ (s.space sp).isInitialized ∧ (s.space sp).utcbArea.ValidArea

/-- The UTCB of every activated user thread lies inside the UTCB area of its space, at an aligned
address. -/
def KState.UtcbsContained (s : KState) : Prop :=
  ∀ i sp, (s.tcb (.t i)).isActivated → (s.tcb (.t i)).space = some sp →
    (s.space sp).utcbArea.Contains (s.tcb (.t i)).myselfLocal.raw ∧
      Aligned (s.tcb (.t i)).myselfLocal.raw

/-- The UTCB location of the destination of a modification. -/
def KState.modifiedLocation (s : KState) (a : ThreadControlArgs) : Word :=
  if a.utcbLocation = noLocation then (s.tcb (getTcb a.destTid)).myselfLocal.raw
  else a.utcbLocation

/-- The calls that supply what the code does not check: the location of a thread that they activate
is aligned, does not end with the address space, and is in the area also when it is the stored one;
the stored location of a thread that migrates is in the area of the new space; and a new space is not
the space of a thread. -/
structure UtcbSafe (s : KState) (a : ThreadControlArgs) : Prop where
  create : s.Creates a → a.pagerTid.isNilthread = false →
    Aligned a.utcbLocation ∧ a.utcbLocation ≠ topLocation
  fresh : s.Creates a → a.destTid = a.spaceTid →
    ∀ i, (s.tcb (.t i)).isActivated → (s.tcb (.t i)).space ≠ s.newSpace a
  activate : s.Modifies a → (s.tcb (getTcb a.destTid)).isActivated = false →
    a.pagerTid.isNilthread = false → Aligned (s.modifiedLocation a) ∧
      s.modifiedLocation a ≠ topLocation ∧ s.locates (getTcb a.destTid) (s.modifiedLocation a)
  migrate : s.Modifies a → (s.tcb (getTcb a.destTid)).isActivated →
    (s.tcb (getTcb a.destTid)).space ≠ (s.tcb (getTcb a.spaceTid)).space →
    s.locates (getTcb a.spaceTid) (s.tcb (getTcb a.destTid)).myselfLocal.raw

/-- The steps in question. -/
def UtcbSteps (s : KState) : Event → Prop
  | .threadControl a => UtcbSafe s a
  | _ => True

structure KState.UtcbInv (s : KState) : Prop where
  areas : s.AreasValid
  contained : s.UtcbsContained

variable {sp : SpacePtr}

theorem Fpage.not_contains_zero : ¬Fpage.Contains ⟨0⟩ u := by
  have haddr : (Fpage.mk 0).getAddress.toNat = 0 := by decide
  have hsize : (Fpage.mk 0).getSize.toNat = 1 := by decide
  rintro ⟨-, hend, -⟩
  rw [haddr, hsize, sizeofUtcb] at hend
  omega

/-- What the check and the alignment give together. -/
theorem KState.AreasValid.contains (h : s.AreasValid) (hsp : (s.tcb p).space = some sp)
    (hl : s.locates p u) (ha : Aligned u) (htop : u ≠ topLocation) :
    (s.space sp).utcbArea.Contains u := by
  rw [KState.locates_of_space hsp, Space.checkUtcbLocation] at hl
  rcases h sp with hz | ⟨-, hv⟩
  · have harea : (s.space sp).utcbArea = ⟨0⟩ := congrArg Prod.snd hz
    rw [harea, Fpage.not_inRange_zero ha htop] at hl
    cases hl
  · exact hv.contains ha htop hl

theorem KState.AreasValid.congr (h : s.AreasValid) (ht : t.areas = s.areas) : t.AreasValid := by
  intro sp
  have hsp : ((t.space sp).kipArea, (t.space sp).utcbArea) =
    ((s.space sp).kipArea, (s.space sp).utcbArea) := congrFun ht sp
  simp only [Prod.mk.injEq] at hsp
  rw [congrFun ht sp, Space.isInitialized, hsp.1, hsp.2]
  exact h sp

/-- A space gets areas, cleared or valid. -/
theorem KState.AreasValid.update (h : s.AreasValid) {A : Fpage × Fpage}
    (ht : t.areas = Function.update s.areas sp A)
    (hA : A = (⟨0⟩, ⟨0⟩) ∨ A.1.isNilFpage = false ∧ A.2.ValidArea) : t.AreasValid := by
  intro sp'
  have harea := congrFun ht sp'
  rcases eq_or_ne sp' sp with rfl | hne
  · rw [Function.update_self] at harea
    rcases hA with rfl | ⟨h1, h2⟩
    · exact .inl harea
    · right
      have hk : (t.space sp').kipArea = A.1 := congrArg Prod.fst harea
      have hu : (t.space sp').utcbArea = A.2 := congrArg Prod.snd harea
      rw [Space.isInitialized, hk, hu, h1]
      exact ⟨rfl, h2⟩
  · rw [Function.update_of_ne hne] at harea
    have hk : (t.space sp').kipArea = (s.space sp').kipArea := congrArg Prod.fst harea
    have hu : (t.space sp').utcbArea = (s.space sp').utcbArea := congrArg Prod.snd harea
    rw [harea, Space.isInitialized, hk, hu]
    exact h sp'

/-- An unchanged thread in an unchanged area stays contained. -/
theorem KState.UtcbsContained.congr (h : s.UtcbsContained) {i : Fin (2 ^ validThreadnoBits)}
    (hi : t.tcbIdent (.t i) = s.tcbIdent (.t i)) (hact : (t.tcb (.t i)).isActivated)
    (hsp : (t.tcb (.t i)).space = some sp) (harea : t.areas sp = s.areas sp) :
    (t.space sp).utcbArea.Contains (t.tcb (.t i)).myselfLocal.raw ∧
      Aligned (t.tcb (.t i)).myselfLocal.raw := by
  simp only [KState.tcbIdent, Tcb.ident, TcbIdent.mk.injEq] at hi
  have hu : (t.space sp).utcbArea = (s.space sp).utcbArea := congrArg Prod.snd harea
  rw [hu, hi.2.1]
  exact h i sp (by rwa [Tcb.isActivated, ← hi.2.2.1]) (by rw [← hi.2.2.2.1, hsp])

theorem Fpage.ValidArea.ne_topLocation (h : f.ValidArea) (hc : f.Contains u) :
    u ≠ topLocation := by
  rintro rfl
  have hend := h.end_le
  have hc := hc.2.1
  simp only [topLocation, sizeofUtcb, BitVec.toNat_ofNat] at hc
  omega

theorem KState.UtcbInv.ne_topLocation (h : s.UtcbInv) {i : Fin (2 ^ validThreadnoBits)}
    (hact : (s.tcb (.t i)).isActivated) (hsp : (s.tcb (.t i)).space = some sp) :
    (s.tcb (.t i)).myselfLocal.raw ≠ topLocation := by
  have hc := (h.contained i sp hact hsp).1
  rcases h.areas sp with hz | ⟨-, hv⟩
  · have harea : (s.space sp).utcbArea = ⟨0⟩ := congrArg Prod.snd hz
    rw [harea] at hc
    exact absurd hc Fpage.not_contains_zero
  · exact hv.ne_topLocation hc

/-- A call in question keeps the areas of the spaces that hold activated threads. -/
theorem UtcbSafe.areas_eq (ha : UtcbSafe s a) {r : Bool} (hs : sysThreadControl a s = .ok (r, t))
    {i : Fin (2 ^ validThreadnoBits)} (hact : (s.tcb (.t i)).isActivated)
    (hsp : (s.tcb (.t i)).space = some sp) : t.areas sp = s.areas sp := by
  rcases sysThreadControl_areas hs with h | ⟨hcre, h | ⟨heq, sp', hsp', h⟩⟩
  · rw [h]
  · rw [h]
  · rw [h, Function.update_of_ne]
    rintro rfl
    exact ha.fresh hcre heq i hact (hsp.trans hsp'.symm)

/-- The destination of a call in question is contained afterwards. -/
theorem KState.UtcbInv.dest (h : s.UtcbInv) (ha : UtcbSafe s a) {r : Bool}
    (hs : sysThreadControl a s = .ok (r, t))
    (hact : (t.tcb (getTcb a.destTid)).isActivated)
    (hsp : (t.tcb (getTcb a.destTid)).space = some sp) :
    (t.space sp).utcbArea.Contains (t.tcb (getTcb a.destTid)).myselfLocal.raw ∧
      Aligned (t.tcb (getTcb a.destTid)).myselfLocal.raw := by
  have heff := sysThreadControl_effect hs
  generalize hc : t.tcbIdent (getTcb a.destTid) = c at heff
  have hact' : c.utcb.isSome := by rw [← hc]; exact hact
  have hsp' : c.space = some sp := by rw [← hc]; exact hsp
  have hloc : (t.tcb (getTcb a.destTid)).myselfLocal = c.myselfLocal := by rw [← hc]; rfl
  have hsame : (s.tcb (getTcb a.destTid)).isActivated →
      (s.tcb (getTcb a.destTid)).space = some sp →
      c.myselfLocal = (s.tcb (getTcb a.destTid)).myselfLocal →
      (t.space sp).utcbArea.Contains c.myselfLocal.raw ∧ Aligned c.myselfLocal.raw := by
    intro h1 h2 h3
    have harea : (t.space sp).utcbArea = (s.space sp).utcbArea :=
      congrArg Prod.snd (ha.areas_eq hs h1 h2)
    rw [harea, h3]
    exact h.contained _ sp h1 h2
  rw [hloc]
  cases heff with
  | rejected => exact hsame hact' hsp' rfl
  | located hinactive =>
    rw [Tcb.isActivated] at hinactive
    simp [KState.tcbIdent, Tcb.ident, hinactive] at hact'
  | irqCreated hatt hinactive => cases hsp'
  | attached hatt hactive => exact hsame hact' hsp' rfl
  | deleted hdel => cases hact'
  | created hcre utcb sp0 hutcb hnew =>
    obtain rfl : sp0 = sp := by simpa [TcbIdent.created] using hsp'
    have hpager : a.pagerTid.isNilthread = false := by
      rw [TcbIdent.created, hutcb] at hact'
      simpa using hact'
    obtain ⟨hne, -, hloc32, hl⟩ := hcre.2.2.2.2.2.resolve_left (by simp [hpager])
    obtain ⟨halign, htop⟩ := ha.create hcre hpager
    rw [KState.newSpace, if_neg hne] at hnew
    have harea : t.areas = s.areas := by
      rcases sysThreadControl_areas hs with h | ⟨-, h | ⟨heq, -⟩⟩
      · exact h
      · exact h
      · exact absurd heq hne
    have harea : (t.space sp0).utcbArea = (s.space sp0).utcbArea :=
      congrArg Prod.snd (congrFun harea sp0)
    simp only [TcbIdent.created, if_neg hloc32, harea]
    exact ⟨h.areas.contains hnew hl halign htop, halign⟩
  | modified hmod utcb hutcb hspace hmove =>
    have harea : t.areas = s.areas := by
      rcases sysThreadControl_areas hs with h | ⟨hcre, -⟩
      · exact h
      · exact absurd hmod hcre.not_modifies
    have harea : (t.space sp).utcbArea = (s.space sp).utcbArea :=
      congrArg Prod.snd (congrFun harea sp)
    have hspace' : (s.tcb (getTcb a.spaceTid)).space = some sp := hsp'
    have hlocal : (TcbIdent.modified (s.tcbIdent (getTcb a.destTid)) a utcb
        (s.tcb (getTcb a.spaceTid)).space).myselfLocal.raw = s.modifiedLocation a := by
      rw [TcbIdent.modified, KState.modifiedLocation]
      split <;> rfl
    rw [harea, hlocal]
    cases hold : (s.tcb (getTcb a.destTid)).isActivated with
    | false =>
      -- the thread is activated in the space it already has
      have hpager : a.pagerTid.isNilthread = false := by
        rw [TcbIdent.modified, hutcb, hold] at hact'
        simpa using hact'
      obtain ⟨halign, htop, hl⟩ := ha.activate hmod hold hpager
      have heq := hmove.resolve_right (by simp [hold])
      exact ⟨h.areas.contains (heq.trans hspace') hl halign htop, halign⟩
    | true =>
      -- an activated thread keeps its location
      have hnoloc : a.utcbLocation = noLocation := by
        rcases hmod.2.2.2.1 with hl | ⟨hinactive, -⟩
        · exact hl
        · rw [hold] at hinactive
          cases hinactive
      rw [KState.modifiedLocation, if_pos hnoloc]
      obtain ⟨sp0, hsp0⟩ := Option.isSome_iff_exists.mp hmod.2.2.1
      have hin := h.contained _ sp0 hold hsp0
      by_cases heq : (s.tcb (getTcb a.destTid)).space = (s.tcb (getTcb a.spaceTid)).space
      · rw [heq, hspace'] at hsp0
        cases hsp0
        exact hin
      · refine ⟨h.areas.contains hspace' (ha.migrate hmod hold heq) hin.2 ?_, hin.2⟩
        exact h.ne_topLocation hold hsp0

theorem KState.UtcbInv.threadControl (h : s.UtcbInv) (ha : UtcbSafe s a) {r : Bool}
    (hs : sysThreadControl a s = .ok (r, t)) : t.UtcbInv := by
  refine ⟨?_, fun i sp hact hsp => ?_⟩
  · rcases sysThreadControl_areas hs with heq | ⟨-, heq | ⟨-, sp, -, heq⟩⟩
    · exact h.areas.congr heq
    · exact h.areas.congr heq
    · exact h.areas.update heq (.inl rfl)
  · rcases eq_or_ne (TcbPtr.t i) (getTcb a.destTid) with hi | hi
    · rw [hi] at hact hsp ⊢
      exact h.dest ha hs hact hsp
    · have hid : t.tcbIdent (.t i) = s.tcbIdent (.t i) :=
        congrFun (keepsOthers_sysThreadControl s r t hs) ⟨_, hi⟩
      have hact' : (s.tcb (.t i)).isActivated := by
        rw [← hact]
        exact (congrArg (fun i : TcbIdent => i.utcb.isSome) hid).symm
      have hsp' : (s.tcb (.t i)).space = some sp := by
        rw [← hsp]
        exact (congrArg TcbIdent.space hid).symm
      exact h.contained.congr hid hact hsp (ha.areas_eq hs hact' hsp')

/-- Space control initialises a space once, with a valid area. -/
theorem sysSpaceControl_areas {b : SpaceControlArgs} {r : Bool}
    (h : sysSpaceControl b s = .ok (r, t)) :
    t.areas = s.areas ∨ ∃ sp, (s.space sp).isInitialized = false ∧
      t.areas = Function.update s.areas sp (b.kipArea, b.utcbArea) ∧
      b.kipArea.isNilFpage = false ∧ b.utcbArea.ValidArea := by
  suffices wp (fun _ => True) (sysSpaceControl b) (fun _ t => t.areas = s.areas ∨
      ∃ sp, (s.space sp).isInitialized = false ∧
        t.areas = Function.update s.areas sp (b.kipArea, b.utcbArea) ∧
        b.kipArea.isNilFpage = false ∧ b.utcbArea.ValidArea) s from
    wp_iff_ok.mp this r t h
  have hfail : ∀ err, wp (fun _ => True) (failWith err) (fun _ t => t.areas = s.areas ∨
      ∃ sp, (s.space sp).isInitialized = false ∧
        t.areas = Function.update s.areas sp (b.kipArea, b.utcbArea) ∧
        b.kipArea.isNilFpage = false ∧ b.utcbArea.ValidArea) s := fun _ =>
    keepsIdent_failWith.areas.wp fun _ _ h => .inl h
  rw [wp_sysSpaceControl]
  split
  · exact hfail _
  · split
    · exact hfail _
    · split
      · exact hfail _
      · refine ⟨fun _ => trivial, fun sp hsp => ?_⟩
        split_ifs with hinit hutcb hkip
        · exact .inl rfl
        · exact hfail _
        · exact hfail _
        · refine .inr ⟨sp, by simpa using hinit, ?_, ?_, ?_⟩
          · funext sp'
            rcases eq_or_ne sp' sp with rfl | hne
            · simp [KState.areas]
            · simp [KState.areas, hne]
          · simp only [Fpage.isNilFpage, beq_eq_false_iff_ne]
            intro hraw
            have hnil : b.kipArea = ⟨0⟩ := by
              rw [← hraw]
            refine hkip (.inl ?_)
            rw [hnil]
            decide
          · simp only [not_or, BitVec.not_lt, Bool.not_eq_true', Bool.not_eq_false] at hutcb
            exact hutcb

theorem KState.UtcbInv.spaceControl (h : s.UtcbInv) {b : SpaceControlArgs} {r : Bool}
    (hs : sysSpaceControl b s = .ok (r, t)) : t.UtcbInv := by
  have hid := keepsTcbIdent_sysSpaceControl s r t hs
  rcases sysSpaceControl_areas hs with heq | ⟨sp0, hinit, heq, hkip, hvalid⟩
  · exact ⟨h.areas.congr heq, fun i sp hact hsp =>
      h.contained.congr (congrFun hid _) hact hsp (by rw [heq])⟩
  · refine ⟨h.areas.update heq (.inr ⟨hkip, hvalid⟩), fun i sp hact hsp => ?_⟩
    refine h.contained.congr (congrFun hid _) hact hsp ?_
    rw [heq, Function.update_of_ne]
    rintro rfl
    -- no activated thread is in a space that was not initialised
    have hact' : (s.tcb (.t i)).isActivated := by
      rw [← hact]
      exact (congrArg (fun i : TcbIdent => i.utcb.isSome) (congrFun hid (.t i))).symm
    have hsp' : (s.tcb (.t i)).space = some sp := by
      rw [← hsp]
      exact (congrArg TcbIdent.space (congrFun hid (.t i))).symm
    have hin := (h.contained i sp hact' hsp').1
    rcases h.areas sp with hz | ⟨h1, -⟩
    · have harea : (s.space sp).utcbArea = ⟨0⟩ := congrArg Prod.snd hz
      rw [harea] at hin
      exact Fpage.not_contains_zero hin
    · rw [h1] at hinit
      cases hinit

theorem KState.UtcbInv.congr (h : s.UtcbInv) (hid : t.tcbIdent = s.tcbIdent)
    (hareas : t.areas = s.areas) : t.UtcbInv :=
  ⟨h.areas.congr hareas, fun _ _ hact hsp =>
    h.contained.congr (congrFun hid _) hact hsp (congrFun hareas _)⟩

theorem KState.Step.utcbInv {e : Event} (hstep : s.Step e t) (h : s.UtcbInv)
    (hok : UtcbSteps s e) : t.UtcbInv := by
  have hrun := (KState.step_iff.mp hstep).2
  cases e with
  | threadControl a =>
    obtain ⟨r, u, hr, hu⟩ := bind_eq_ok.mp hrun
    cases hu
    exact h.threadControl hok hr
  | spaceControl b =>
    obtain ⟨r, u, hr, hu⟩ := bind_eq_ok.mp hrun
    cases hu
    exact h.spaceControl hr
  | _ =>
    have hi := hstep.ident rfl
    refine h.congr (KState.tcbIdent_eq hi) ?_
    simp only [KState.ident, Ident.mk.injEq] at hi
    funext sp
    simp only [KState.areas, hi.2.1]

/-! ## The boot -/

/-- While the root servers are created, their spaces have the root areas. -/
structure BootAreas (tids : List ThreadId) (s : KState) : Prop extends BootMem tids s where
  valid : s.AreasValid
  root {i : Fin (2 ^ validThreadnoBits)} {sp : SpacePtr} : (s.tcb (.t i)).space = some sp →
    s.areas sp = (rootKipArea, rootUtcbArea)

section Boot

variable {cfg : BootConfig} {tid pager : ThreadId} {tids : List ThreadId}

theorem wp_createRootServer_areas (h : s.mem.Inv) :
    wp (fun _ => True) (createRootServer tid rootServerTid pager cfg) (fun sp t =>
      (∀ q, (s.tcb q).space ≠ some sp) ∧
      t.areas = Function.update s.areas sp (rootKipArea, rootUtcbArea)) s := by
  obtain ⟨own, hown⟩ := h
  rw [createRootServer, wp_bind]
  refine wp_allocateSpace fun addr kmem halloc => ?_
  simp only [createInactive, initSpace, setSpace, addTcb, setUtcbLocation, wp_bind, wp_init,
    wp_modTcb, wp_modSpace, wp_derefSpace, Function.update_self, Function.update_idem]
  refine ⟨fun _ => trivial, fun sp hsp => ?_⟩
  obtain rfl := Option.some.inj hsp
  refine keepsAreas_activate.wp fun _ t1 ht1 => keepsIdent_startRootServer.areas.wp fun _ t2 ht2 =>
    ⟨fun q => hown.fresh halloc, ?_⟩
  rw [ht2, ht1]
  funext sp'
  rcases eq_or_ne sp' (.heap addr) with rfl | hne
  · simp [KState.areas]
  · simp [KState.areas, hne]

theorem validArea_root : rootUtcbArea.ValidArea := by
  unfold Fpage.ValidArea
  decide

theorem BootAreas.create (h : BootAreas tids s) (htid : tid ∈ rootTids) (hnot : tid ∉ tids) :
    wp (fun _ => True) (createRootServer tid rootServerTid pager cfg)
      (fun _ t => BootAreas (tid :: tids) t) s := by
  rw [wp_iff_ok]
  intro sp t ht
  obtain ⟨hfresh, hareas⟩ := wp_iff_ok.mp (wp_createRootServer_areas h.inv) sp t ht
  obtain ⟨u, hself⟩ := wp_iff_ok.mp wp_createRootServer sp t ht
  have hmem := wp_iff_ok.mp (h.toBootMem.create htid hnot) sp t ht
  refine ⟨hmem, h.valid.update hareas (.inr ⟨by decide, validArea_root⟩), fun {i sp'} hsp' => ?_⟩
  rw [hareas]
  rcases eq_or_ne (TcbPtr.t i) (getTcb tid) with hi | hi
  · have hspace : (t.tcb (getTcb tid)).space = some sp := congrArg TcbIdent.space hself
    rw [hi, hspace] at hsp'
    cases hsp'
    exact Function.update_self _ _ _
  · have hid : (t.tcb (.t i)).space = (s.tcb (.t i)).space :=
      congrArg TcbIdent.space (congrFun (keepsOthers_createRootServer s sp t ht) ⟨_, hi⟩)
    rw [hid] at hsp'
    rw [Function.update_of_ne]
    · exact h.root hsp'
    · rintro rfl
      exact hfresh _ hsp'

/-- No thread but the idle thread has a space, and no space is initialised. -/
theorem BootAreas.of_idle (hfree : s.kmem.freeList.Nodup)
    (hnone : ∀ i, (s.tcb (.t i)).space = none) (hidle : (s.tcb .idle).space = some .idle)
    (hzero : s.space = fun _ => .zero) : BootAreas [] s := by
  refine ⟨.of_idle hfree hnone hidle, fun sp => .inl ?_, fun {i sp} hsp => ?_⟩
  · simp [KState.areas, hzero, Space.zero]
  · simp [hnone] at hsp

theorem KState.UtcbInv.boot (h : boot cfg (KState.zero cfg) = .ok ((), s)) : s.UtcbInv := by
  obtain ⟨tids, hs⟩ := boot_rule (I := BootAreas)
    (fun t hfree hnone hidle hzero => .of_idle hfree hnone hidle hzero)
    (fun _ _ _ _ htid hnot hs => hs.create htid hnot)
    (fun _ _ _ _ _ hs => ⟨⟨hs.inv, hs.absent⟩, hs.valid, hs.root⟩) h
  refine ⟨hs.valid, fun i sp hact hsp => ?_⟩
  obtain ⟨tids', htable, -⟩ := rootTable_boot h
  obtain ⟨tid, htid, hi⟩ := htable.only (p := .t i) (by simp) (by simp [Tcb.isExisting, hsp])
  obtain ⟨u, sp', hid⟩ := htable.ident htid
  have hlocal : (s.tcb (getTcb tid)).myselfLocal = ⟨rootUtcbStart⟩ :=
    congrArg TcbIdent.myselfLocal hid
  have harea : (s.space sp).utcbArea = rootUtcbArea := congrArg Prod.snd (hs.root hsp)
  rw [harea, hi, hlocal]
  decide

end Boot

/-! ## All runs -/

/-- In the runs in question, the UTCB of every activated thread lies inside its area. -/
theorem utcbsContained (h : Reachable UtcbSteps s) : s.UtcbsContained := by
  have hinv : s.UtcbInv := h.invariant (fun _ ⟨_, hboot⟩ => .boot hboot)
    fun _ _ _ hI hok hstep => hstep.utcbInv hI hok
  exact hinv.contained

/-- Creations of threads in existing spaces at locations that are aligned are among the steps in
question. -/
def PlacedSteps (s : KState) : Event → Prop
  | .threadControl a => s.Creates a ∧ a.destTid ≠ a.spaceTid ∧ Aligned a.utcbLocation ∧
      a.utcbLocation ≠ topLocation
  | _ => True

instance (e : Event) : Decidable (PlacedSteps s e) :=
  KState.decidableThreadControl (fun a => s.Creates a ∧ a.destTid ≠ a.spaceTid ∧
    Aligned a.utcbLocation ∧ a.utcbLocation ≠ topLocation) e

theorem PlacedSteps.utcbSteps {e : Event} (h : PlacedSteps s e) : UtcbSteps s e := by
  cases e with
  | threadControl a =>
    obtain ⟨hcre, hne, halign, htop⟩ := h
    exact ⟨fun _ _ => ⟨halign, htop⟩, fun _ heq => absurd heq hne,
      fun hmod => absurd hmod hcre.not_modifies, fun hmod => absurd hmod hcre.not_modifies⟩
  | _ => trivial

/-- `sigma0` creates and activates a thread in its own space. -/
theorem exists_utcbsContained :
    ∃ s, Reachable UtcbSteps s ∧ (s.tcb (getTcb (sampleTid 0))).isActivated ∧
      s.UtcbsContained := by
  obtain ⟨s, hs, hP⟩ := exists_reachable PlacedSteps
    [.idle, .resume,
      .threadControl ⟨sampleTid 0, sigma0Tid, rootServerTid, sigma0Tid, rootUtcbStart + 0x400⟩]
    (fun s => (s.tcb (getTcb (sampleTid 0))).isActivated) (by decide +kernel)
  have hs := hs.mono fun _ _ => PlacedSteps.utcbSteps
  exact ⟨s, hs, hP, utcbsContained hs⟩

/-- `sigma0` creates a thread without a UTCB location and activates it with the location unchanged:
the check of `~0UL` wraps around, and the UTCB is at address 0. -/
theorem exists_not_utcbsContained :
    ∃ s, Reachable (fun _ _ => True) s ∧ ¬s.UtcbsContained := by
  obtain ⟨s, hs, hP⟩ := exists_reachable (fun _ _ => True)
    [.idle, .resume,
      .threadControl ⟨sampleTid 0, sigma0Tid, rootServerTid, .nilthread, noLocation32⟩,
      .threadControl ⟨sampleTid 0, sigma0Tid, .nilthread, sigma0Tid, noLocation⟩]
    (fun s => decide ((s.tcb (getTcb (sampleTid 0))).isActivated ∧
      ∃ sp ∈ (s.tcb (getTcb (sampleTid 0))).space,
        ¬(s.space sp).utcbArea.Contains (s.tcb (getTcb (sampleTid 0))).myselfLocal.raw))
    (by decide +kernel)
  obtain ⟨hact, sp, hsp, hout⟩ := of_decide_eq_true hP
  exact ⟨s, hs, fun h => hout (h _ sp hact hsp).1⟩

end L4Thread
