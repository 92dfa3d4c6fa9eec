import L4Thread.Irpy.Stubs
import L4Thread.Theory.ControlFrame

/-!
# The stubs against the kernel

Where the harness's stubs and the functions they replace lead `SYS_THREAD_CONTROL` to the same
result and to the same fields of all threads. They part where a thread is deleted, moved or
activated, and where a new thread or interrupt thread gets a TCB that was not empty.
-/

namespace L4Thread

open TrapM Kernel

variable {s t : KState} {a : ThreadControlArgs} {p q dest : TcbPtr} {r : Bool} {H : Helpers}
  {fresh : SpacePtr} {tid tid' : ThreadId} {sp : SpacePtr} {loc : Word}

/-! ## The kernel's own functions -/

namespace Helpers

theorem createInactiveWith_kernel :
    Helpers.kernel.createInactiveWith p tid tid' = createInactive p tid tid' := rfl

theorem createKernelThreadWith_kernel {u : UtcbPtr} :
    Helpers.kernel.createKernelThreadWith p tid u = createKernelThread p tid u := rfl

theorem threadControlInterruptWith_kernel :
    Helpers.kernel.threadControlInterruptWith tid tid' = threadControlInterrupt tid tid' := rfl

theorem threadDeleteWith_kernel : Helpers.kernel.threadDeleteWith p = threadDelete p := rfl

theorem modifyPagerWith_kernel : Helpers.kernel.modifyPagerWith dest a = modifyPager dest a := by
  simp only [modifyPagerWith, modifyPager, startThread, kernel, TrapM.bind_bind, TrapM.pure_bind,
    if_true]

theorem modifySettingsWith_kernel :
    Helpers.kernel.modifySettingsWith dest a = modifySettings dest a := by
  rw [modifySettingsWith, modifyPagerWith_kernel]
  rfl

theorem modifyThreadWith_kernel {o : Option SpacePtr} :
    Helpers.kernel.modifyThreadWith dest a o = modifyThread dest a o := by
  simp only [modifyThreadWith, modifySettingsWith_kernel]
  simp only [kernel, modifyThread, TrapM.bind_bind, TrapM.pure_bind, if_true]

theorem threadModifyWith_kernel : Helpers.kernel.threadModifyWith dest a = threadModify dest a := by
  simp only [threadModifyWith, threadModify, modifyThreadWith_kernel]

theorem createThreadWith_kernel : Helpers.kernel.createThreadWith dest a = createThread dest a := by
  simp only [createThreadWith, createThread, createInactiveWith_kernel, startThread]
  simp only [newThreadSpaceWith, newThreadSpace, kernel, TrapM.bind_bind, TrapM.pure_bind, if_true]

theorem threadCreateWith_kernel : Helpers.kernel.threadCreateWith dest a = threadCreate dest a := by
  refine congrArg (createCheck a >>= ·) (funext fun o => ?_)
  cases o with
  | some err => rfl
  | none => exact congrArg (· >>= fun _ => pure true) createThreadWith_kernel

/-- The call over the kernel's functions is the kernel's call. -/
theorem sysThreadControlWith_kernel :
    Helpers.kernel.sysThreadControlWith a = sysThreadControl a := by
  simp only [sysThreadControlWith, sysThreadControl, threadControlInterruptWith_kernel,
    threadDeleteWith_kernel, threadModifyWith_kernel, threadCreateWith_kernel]

end Helpers

/-! ## Deletion -/

/-- The stubs can give the call the result `r` and the fields of `t`. -/
def Fits (x : SpacePtr → Kernel Bool) (s : KState) (r : Bool) (t : KState) : Prop :=
  ∃ fresh t', x fresh s = .ok (r, t') ∧ t'.fields = t.fields

theorem Fits.of_eq {x : SpacePtr → Kernel Bool} (h : ∀ fresh, x fresh s = .ok (r, t)) :
    Fits x s r t :=
  ⟨.idle, t, h .idle, rfl⟩

theorem failWith_result {err : Word} (h : failWith err s = .ok (r, t)) : r = false := by
  have hwp : wp (fun _ => True) (failWith err) (fun b _ => b = false) s := by
    rw [wp_failWith]
    exact ⟨fun _ => trivial, fun _ _ => rfl⟩
  exact wp_iff_ok.mp hwp r t h

namespace Helpers

theorem threadDeleteWith_self (h : dest = s.currentTcb) :
    H.threadDeleteWith dest s = failWith einvalidThread s := by
  simp [threadDeleteWith, bind_apply, getCurrentTcb, h]

theorem threadDeleteWith_absent (h : dest ≠ s.currentTcb)
    (hex : (s.tcb dest).isExisting = false) : H.threadDeleteWith dest s = .ok (true, s) := by
  simp [threadDeleteWith, bind_apply, getCurrentTcb, readTcb, h, hex]

theorem threadDeleteWith_existing (h : dest ≠ s.currentTcb) (hex : (s.tcb dest).isExisting) :
    H.threadDeleteWith dest s = (do
      H.deleteTcb dest
      if ← H.removeTcb (s.tcb dest).space then
        let sp ← derefSpace (s.tcb dest).space
        unmapSpace sp
        freeSpace sp
      pure true) s := by
  simp only [threadDeleteWith, bind_apply, getCurrentTcb, gets_apply, readTcb, if_neg h, hex,
    if_true]

end Helpers

/-- A deletion leaves the thread without a space. -/
theorem threadDelete_space (hself : dest ≠ s.currentTcb) (hex : (s.tcb dest).isExisting)
    (h : threadDelete dest s = .ok (r, t)) : r = true ∧ (t.tcb dest).space = none := by
  rw [← Helpers.threadDeleteWith_kernel, Helpers.threadDeleteWith_existing hself hex] at h
  obtain ⟨_, t1, h1, h⟩ := bind_eq_ok.mp h
  have hdel := wp_iff_ok.mp wp_deleteTcb_isDeleted _ t1 h1
  have hkeep : KeepsTcbIdent (do
      if ← removeTcb (s.tcb dest).space then
        let sp ← derefSpace (s.tcb dest).space
        unmapSpace sp
        freeSpace sp
      pure true) := by
    grind
  have hret : Returns (· = true) (do
      if ← removeTcb (s.tcb dest).space then
        let sp ← derefSpace (s.tcb dest).space
        unmapSpace sp
        freeSpace sp
      pure true) := by
    grind
  have hspace : (t.tcb dest).space = (t1.tcb dest).space :=
    congrArg TcbIdent.space (congrFun (hkeep t1 r t h) dest)
  exact ⟨hret t1 r t h, hspace.trans hdel.space⟩

/-- The stub of the deletion leaves the space. -/
theorem threadDelete_fits (h : threadDelete dest s = .ok (r, t)) :
    Fits (fun fresh => (Helpers.stubs fresh).threadDeleteWith dest) s r t ↔
      ¬(dest ≠ s.currentTcb ∧ (s.tcb dest).isExisting) := by
  by_cases hself : dest = s.currentTcb
  · refine iff_of_true (.of_eq fun fresh => ?_) fun hd => hd.1 hself
    rw [Helpers.threadDeleteWith_self hself, ← h, ← Helpers.threadDeleteWith_kernel,
      Helpers.threadDeleteWith_self hself]
  · cases hex : (s.tcb dest).isExisting with
    | false =>
      refine iff_of_true (.of_eq fun fresh => ?_) fun hd => nomatch hd.2
      rw [Helpers.threadDeleteWith_absent hself hex, ← h, ← Helpers.threadDeleteWith_kernel,
        Helpers.threadDeleteWith_absent hself hex]
    | true =>
      refine iff_of_false ?_ (not_not.mpr ⟨hself, rfl⟩)
      rintro ⟨fresh, t', ht', hfields⟩
      obtain ⟨-, hnone⟩ := threadDelete_space hself hex h
      have hrun : (Helpers.stubs fresh).threadDeleteWith dest s = .ok (r, t') := ht'
      rw [Helpers.threadDeleteWith_existing hself hex] at hrun
      cases hrun
      have hspace : (s.tcb dest).space = (t.tcb dest).space := by
        simpa [KState.fields, Tcb.fields] using congrArg TcbFields.space (congrFun hfields dest)
      rw [Tcb.isExisting, hspace, hnone] at hex
      cases hex

/-! ## Modification -/

/-- The location and the space specifier of a modification are accepted. -/
def KState.Specified (s : KState) (dest : TcbPtr) (a : ThreadControlArgs) : Prop :=
  (a.utcbLocation = noLocation ∨
    (s.tcb dest).isActivated = false ∧ s.locates dest a.utcbLocation) ∧
  (s.tcb (getTcb a.spaceTid)).myselfGlobal = a.spaceTid

/-- The state with the location of a modification stored. -/
def KState.stored (s : KState) (dest : TcbPtr) (a : ThreadControlArgs) : KState :=
  if a.utcbLocation = noLocation then s else s.withLocation dest a.utcbLocation

namespace KState

theorem stored_space : ((s.stored dest a).tcb q).space = (s.tcb q).space := by
  rw [stored]
  split
  · rfl
  · exact withLocation_space _

theorem stored_utcb : ((s.stored dest a).tcb q).utcb = (s.tcb q).utcb := by
  rw [stored]
  split
  · rfl
  · exact withLocation_utcb _

theorem stored_myselfGlobal : ((s.stored dest a).tcb q).myselfGlobal = (s.tcb q).myselfGlobal := by
  rw [stored]
  split
  · rfl
  · exact withLocation_myselfGlobal _

theorem stored_locates : (s.stored dest a).locates q loc = s.locates q loc := by
  rw [stored]
  split
  · rfl
  · exact withLocation_locates _ _

end KState

/-- How the location of a modification is taken. -/
theorem modifyUtcbLocation_apply : modifyUtcbLocation dest a.utcbLocation s =
    if a.utcbLocation = noLocation ∨
        (s.tcb dest).isActivated = false ∧ s.locates dest a.utcbLocation then
      .ok (true, s.stored dest a)
    else if (s.tcb dest).isActivated = false ∧ (s.tcb dest).space = none then .error .nullSpace
    else .ok (false, s) := by
  by_cases hloc : a.utcbLocation = noLocation
  · simp [modifyUtcbLocation, hloc, KState.stored]
  · cases hact : (s.tcb dest).isActivated with
    | true => simp [modifyUtcbLocation, hloc, bind_apply, readTcb, hact]
    | false =>
      cases hsp : (s.tcb dest).space with
      | none =>
        simp [modifyUtcbLocation, hloc, bind_apply, readTcb, hact, checkUtcbLocation, readSpace,
          derefSpace, hsp, KState.locates]
      | some sp =>
        rw [KState.locates_of_space hsp]
        cases hcheck : (s.space sp).checkUtcbLocation a.utcbLocation with
        | true =>
          simp [modifyUtcbLocation, hloc, bind_apply, readTcb, hact, checkUtcbLocation, readSpace,
            derefSpace, hsp, hcheck, setUtcbLocation, modTcb, KState.stored, KState.withLocation]
        | false =>
          simp [modifyUtcbLocation, hloc, bind_apply, readTcb, hact, checkUtcbLocation, readSpace,
            derefSpace, hsp, hcheck]

namespace Helpers

theorem threadModifyWith_specified (h : s.Specified dest a) :
    H.threadModifyWith dest a s =
      H.modifyThreadWith dest a (s.tcb (getTcb a.spaceTid)).space (s.stored dest a) := by
  rw [threadModifyWith, bind_apply, modifyUtcbLocation_apply, if_pos h.1]
  simp only [if_true, bind_apply, readTcb, gets_apply, KState.stored_myselfGlobal,
    KState.stored_space, h.2, ne_eq, not_true_eq_false, if_false]

/-- A modification that is rejected at its location or space specifier calls no helper. -/
theorem threadModifyWith_unspecified {K : Helpers} (h : ¬s.Specified dest a) :
    H.threadModifyWith dest a s = K.threadModifyWith dest a s := by
  rw [threadModifyWith, threadModifyWith, bind_apply, bind_apply, modifyUtcbLocation_apply]
  by_cases hloc : a.utcbLocation = noLocation ∨
      (s.tcb dest).isActivated = false ∧ s.locates dest a.utcbLocation
  · have hid : (s.tcb (getTcb a.spaceTid)).myselfGlobal ≠ a.spaceTid := fun hid => h ⟨hloc, hid⟩
    simp only [if_pos hloc, if_true, bind_apply, readTcb, gets_apply, KState.stored_myselfGlobal,
      if_pos hid]
  · rw [if_neg hloc]
    by_cases hnone : (s.tcb dest).isActivated = false ∧ (s.tcb dest).space = none
    · rw [if_pos hnone]
    · rw [if_neg hnone]
      rfl

theorem modifyPagerWith_unstarted {K : Helpers} (h : a.pagerTid.isNilthread ∨
    (s.tcb dest).isActivated ∨ s.locates dest a.utcbLocation = false) :
    H.modifyPagerWith dest a s = K.modifyPagerWith dest a s := by
  rw [modifyPagerWith, modifyPagerWith]
  by_cases hnil : a.pagerTid.isNilthread
  · rw [if_pos hnil, if_pos hnil]
  · rw [if_neg hnil, if_neg hnil]
    simp only [bind_apply, readTcb, gets_apply]
    cases hact : (s.tcb dest).isActivated with
    | true => rfl
    | false =>
      have hloc : s.locates dest a.utcbLocation = false := by simpa [hnil, hact] using h
      simp only [Bool.false_eq_true, if_false, bind_apply, checkUtcbLocation, readTcb, gets_apply,
        readSpace, derefSpace]
      cases hsp : (s.tcb dest).space with
      | none => rfl
      | some sp =>
        rw [KState.locates_of_space hsp] at hloc
        simp [hloc]

theorem modifySettingsWith_unstarted {K : Helpers} (h : a.pagerTid.isNilthread ∨
    (s.tcb dest).isActivated ∨ s.locates dest a.utcbLocation = false) :
    H.modifySettingsWith dest a s = K.modifySettingsWith dest a s := by
  rw [modifySettingsWith, modifySettingsWith, bind_apply, bind_apply, modifyPagerWith_unstarted h]

/-- The stub of the activation gives the thread no UTCB, which the wait for the start message
needs. -/
theorem modifySettingsWith_started (hnil : a.pagerTid.isNilthread = false)
    (hact : (s.tcb dest).isActivated = false) (hloc : s.locates dest a.utcbLocation) :
    (stubs fresh).modifySettingsWith dest a s = .error .nullUtcb := by
  have hutcb : (s.tcb dest).utcb = none := by simpa [Tcb.isActivated] using hact
  obtain ⟨sp, hsp⟩ : ∃ sp, (s.tcb dest).space = some sp := by
    cases hsp : (s.tcb dest).space with
    | none => simp [KState.locates, hsp] at hloc
    | some sp => exact ⟨sp, rfl⟩
  rw [KState.locates_of_space hsp] at hloc
  simp [modifySettingsWith, modifyPagerWith, bind_apply, readTcb, hnil, hact, checkUtcbLocation,
    readSpace, derefSpace, hsp, hloc, stubs, fakeWaitForStartup, setState, setPartner, setBr,
    modTcb, modUtcb, getUtcb, hutcb]

theorem modifyThreadWith_moved {o : Option SpacePtr} (h : (s.tcb dest).space ≠ o) :
    H.modifyThreadWith dest a o s = (do
      if ← H.migrateToSpace dest o then H.modifySettingsWith dest a else failWith enoMem) s := by
  simp only [modifyThreadWith, bind_apply, readTcb, gets_apply, if_pos h]

theorem modifyThreadWith_stays {o : Option SpacePtr} (h : (s.tcb dest).space = o) :
    H.modifyThreadWith dest a o s = H.modifySettingsWith dest a s := by
  simp [modifyThreadWith, bind_apply, readTcb, h]

end Helpers

/-- A modification that moves the thread succeeds. -/
theorem modifyThread_moved {o : Option SpacePtr} (h : (s.tcb dest).space ≠ o)
    (hrun : modifyThread dest a o s = .ok (r, t)) : r = true := by
  suffices wp (fun _ => True) (modifyThread dest a o) (fun b _ => b = true) s from
    wp_iff_ok.mp this r t hrun
  rw [modifyThread, wp_bind, wp_readTcb, wp_ite, if_pos h, wp_bind]
  refine wp_mono wp_migrateToSpace fun _ t1 hpost => ?_
  obtain ⟨u, hu⟩ := hpost
  have hact : (t1.tcb dest).isActivated = true := congrArg (·.utcb.isSome) hu
  refine wp_mono wp_modifySettings fun b t2 ht2 => ?_
  cases b with
  | true => rfl
  | false =>
    have hno : (t1.tcb dest).isActivated = false := ht2.2
    rw [hact] at hno
    cases hno

/-- The stubs refuse to move a thread, and do not start it. -/
theorem threadModify_fits (h : threadModify dest a s = .ok (r, t)) :
    Fits (fun fresh => (Helpers.stubs fresh).threadModifyWith dest a) s r t ↔
      (s.Specified dest a → (s.tcb dest).space = (s.tcb (getTcb a.spaceTid)).space ∧
        (a.pagerTid.isNilthread ∨ (s.tcb dest).isActivated ∨
          s.locates dest a.utcbLocation = false)) := by
  rw [← Helpers.threadModifyWith_kernel] at h
  by_cases hspec : s.Specified dest a
  · rw [Helpers.threadModifyWith_specified hspec] at h
    have hstub : ∀ fresh, (Helpers.stubs fresh).threadModifyWith dest a s =
        (Helpers.stubs fresh).modifyThreadWith dest a (s.tcb (getTcb a.spaceTid)).space
          (s.stored dest a) :=
      fun fresh => Helpers.threadModifyWith_specified hspec
    by_cases hspace : (s.tcb dest).space = (s.tcb (getTcb a.spaceTid)).space
    · have hstays : ((s.stored dest a).tcb dest).space = (s.tcb (getTcb a.spaceTid)).space := by
        rw [KState.stored_space, hspace]
      rw [Helpers.modifyThreadWith_stays hstays] at h
      by_cases hstart : a.pagerTid.isNilthread ∨ (s.tcb dest).isActivated ∨
          s.locates dest a.utcbLocation = false
      · refine iff_of_true (.of_eq fun fresh => ?_) fun _ => ⟨hspace, hstart⟩
        rw [hstub, Helpers.modifyThreadWith_stays hstays, ← h]
        refine Helpers.modifySettingsWith_unstarted ?_
        rwa [Tcb.isActivated, KState.stored_utcb, KState.stored_locates]
      · refine iff_of_false ?_ fun hall => hstart (hall hspec).2
        rintro ⟨fresh, t', hrun, -⟩
        have hrun : (Helpers.stubs fresh).threadModifyWith dest a s = .ok (r, t') := hrun
        rw [hstub, Helpers.modifyThreadWith_stays hstays,
          Helpers.modifySettingsWith_started] at hrun
        · cases hrun
        · simp_all
        · rw [Tcb.isActivated, KState.stored_utcb]
          simp_all [Tcb.isActivated]
        · rw [KState.stored_locates]
          simp_all
    · refine iff_of_false ?_ fun hall => hspace (hall hspec).1
      rintro ⟨fresh, t', hrun, -⟩
      have hrun : (Helpers.stubs fresh).threadModifyWith dest a s = .ok (r, t') := hrun
      have hmoved : ((s.stored dest a).tcb dest).space ≠ (s.tcb (getTcb a.spaceTid)).space := by
        rwa [KState.stored_space]
      rw [hstub, Helpers.modifyThreadWith_moved hmoved] at hrun
      have hfalse : r = false := failWith_result hrun
      rw [Helpers.modifyThreadWith_kernel] at h
      rw [modifyThread_moved hmoved h] at hfalse
      cases hfalse
  · refine iff_of_true (.of_eq fun fresh => ?_) fun hall => absurd hall hspec
    rw [Helpers.threadModifyWith_unspecified hspec, h]

/-! ## Creation -/

/-- The UTCB that `allocate_utcb` finds for a location in a space. -/
def KState.utcbAt (s : KState) (sp : SpacePtr) (loc : Word) : Option UtcbPtr :=
  match (s.space sp).utcbPages.lookup (pageOf loc.toNat) with
  | some page => some (.user (page + loc.toNat % pageSize))
  | none => (s.kmem.allocAligned pageSize loc.toNat mips64Align).map fun b =>
      .user (b.1 + loc.toNat % pageSize)

/-- The UTCB of a thread that is created with its pager. -/
def KState.newUtcb (s : KState) (a : ThreadControlArgs) : Option UtcbPtr :=
  (s.tcb (getTcb a.spaceTid)).space.bind fun sp => s.utcbAt sp a.utcbLocation

theorem wp_allocateUtcb_at : wp (fun _ => True) (allocateUtcb (some sp) loc)
    (fun u t => s.utcbAt sp loc = some u ∧ t.tcb = s.tcb) s := by
  rw [allocateUtcb, wp_bind, wp_derefSpace]
  refine ⟨fun _ => trivial, fun sp' hsp' => ?_⟩
  cases hsp'
  rw [wp_bind, wp_gets]
  simp only [KState.utcbAt]
  cases hpage : (s.space sp).utcbPages.lookup (pageOf loc.toNat) with
  | some page => exact ⟨rfl, rfl⟩
  | none =>
    rw [wp_bind, wp_gets]
    cases halloc : s.kmem.allocAligned pageSize loc.toNat mips64Align with
    | none => exact trivial
    | some b => exact ⟨rfl, rfl⟩

/-- A thread that is started waits for its pager, with the UTCB of its location. -/
theorem wp_startThread_at (sp : SpacePtr) (hsp : (s.tcb p).space = some sp) :
    wp (fun _ => True) (startThread p tid) (fun _ t => (t.tcb p).state = .waitingForever ∧
      (t.tcb p).utcb = s.utcbAt sp (s.tcb p).myselfLocal.raw) s := by
  rw [startThread, wp_bind, activate, wp_bind, wp_readTcb, wp_bind, hsp]
  refine wp_mono wp_allocateUtcb_at fun u t hpost => ?_
  obtain ⟨hu, htcb⟩ := hpost
  simp [setGlobalId, setPager, setScheduler, createStartupStack, initStack, notify, pushFrame,
    wp_modUtcb, fakeWaitForStartup, setState, setPartner, setBr, hu]

/-- The new thread of a creation without a pager is aborted. -/
theorem wp_createThread_inactive (hnil : a.pagerTid.isNilthread) :
    wp (fun _ => True) (createThread dest a) (fun _ t => (t.tcb dest).state = .aborted) s := by
  have hend : ∀ {r : KState}, (r.tcb dest).state = .aborted → wp (fun _ => True) (do
      let space ← newThreadSpace a
      setSpace dest space
      addTcb space
      if !a.pagerTid.isNilthread then startThread dest a.pagerTid)
      (fun _ t => (t.tcb dest).state = .aborted) r := by
    intro r hr
    have hkeep : KeepsOutside (fun _ => False) (newThreadSpace a) := by
      unfold newThreadSpace allocateSpace
      repeat' first | with_reducible refine Keeps.bind ?_ fun _ => ?_ | split
      all_goals grind
    rw [wp_bind]
    refine hkeep.wp fun o r1 hr1 => ?_
    have htcb : r1.tcb dest = r.tcb dest := KState.tcbsOutside_eq_iff.mp hr1 dest id
    simp [setSpace, addTcb, wp_derefSpace, hnil, htcb, hr]
  rw [createThread, wp_bind, createInactive, wp_bind, wp_init, wp_modTcb, wp_ite]
  split
  · rw [wp_bind, setUtcbLocation, wp_modTcb]
    exact hend (by simp [Tcb.init])
  · exact hend (by simp [Tcb.init])

/-- A new space count does not matter for the UTCBs. -/
theorem KState.utcbAt_congr {s' : KState}
    (hpages : (s'.space sp).utcbPages = (s.space sp).utcbPages)
    (hkmem : s'.kmem = s.kmem) : s'.utcbAt sp loc = s.utcbAt sp loc := by
  rw [utcbAt, utcbAt, hpages, hkmem]

/-- The new thread of a creation with its pager, from its initialised TCB `c` on. -/
theorem wp_createFrom_active {c : Tcb} (hnil : a.pagerTid.isNilthread = false)
    (hne : a.destTid ≠ a.spaceTid) (hspace : c.space = none)
    (hlocal : c.myselfLocal = ⟨a.utcbLocation⟩) :
    wp (fun _ => True) (do
      let space ← newThreadSpace a
      setSpace dest space
      addTcb space
      if !a.pagerTid.isNilthread then startThread dest a.pagerTid) (fun _ t =>
        (t.tcb dest).state = .waitingForever ∧ (t.tcb dest).utcb = s.newUtcb a)
      { s with tcb := Function.update s.tcb dest c } := by
  simp only [newThreadSpace, if_pos hne, wp_bind, wp_readTcb, wp_pure, setSpace, wp_modTcb, addTcb,
    wp_derefSpace, wp_modSpace, hnil, Bool.not_false, if_true]
  refine ⟨fun _ => trivial, fun sp hsp => ?_⟩
  have hslot : getTcb a.spaceTid ≠ dest := by
    intro hslot
    simp [hslot, hspace] at hsp
  rw [Function.update_of_ne hslot] at hsp ⊢
  refine wp_mono (wp_startThread_at sp (by simp [hsp])) fun _ t ht => ⟨ht.1, ?_⟩
  rw [ht.2, KState.newUtcb, hsp, Option.bind_some]
  simp only [Function.update_self, hlocal]
  exact KState.utcbAt_congr (by simp) rfl

/-- The new thread of a creation with its pager. -/
theorem wp_createThread_active (hnil : a.pagerTid.isNilthread = false)
    (hne : a.destTid ≠ a.spaceTid) (hloc : a.utcbLocation ≠ noLocation32) :
    wp (fun _ => True) (createThread dest a) (fun _ t =>
      (t.tcb dest).state = .waitingForever ∧ (t.tcb dest).utcb = s.newUtcb a) s := by
  rw [createThread, wp_bind, createInactive, wp_bind, wp_init, wp_modTcb, wp_ite, if_pos hloc,
    wp_bind, setUtcbLocation, wp_modTcb]
  simp only [Function.update_self, Function.update_idem]
  exact wp_createFrom_active hnil hne rfl rfl

/-- The fields of the TCB of a new thread. -/
def TcbFields.created (a : ThreadControlArgs) (sp : SpacePtr) (utcb : Option UtcbPtr) :
    TcbFields where
  myselfGlobal := a.destTid
  state := if a.pagerTid.isNilthread then .aborted else .waitingForever
  scheduler := a.schedulerTid
  space := some sp
  utcb := utcb

theorem KState.fields_eq_update {d : TcbFields} (hdest : t.fields dest = d)
    (hothers : ∀ q ≠ dest, t.tcb q = s.tcb q) : t.fields = Function.update s.fields dest d := by
  funext q
  rcases eq_or_ne q dest with rfl | hq
  · rw [hdest, Function.update_self]
  · rw [Function.update_of_ne hq, fields, fields, hothers q hq]

/-- What a creation of the kernel makes of the fields. -/
theorem createThread_fields (hcreates : s.Creates a)
    (h : createThread (getTcb a.destTid) a s = .ok ((), t)) :
    ∃ sp, s.newSpace a = some sp ∧ t.fields = Function.update s.fields (getTcb a.destTid)
      (.created a sp (if a.pagerTid.isNilthread then none else s.newUtcb a)) := by
  obtain ⟨sp, utcb, hutcb, hsp, hident⟩ := wp_iff_ok.mp wp_createThread _ t h
  have hkeep : KeepsOutside (· = getTcb a.destTid) (createThread (getTcb a.destTid) a) :=
    keepsOutside_createThread rfl
  have hothers := KState.tcbsOutside_eq_iff.mp (hkeep s _ t h)
  simp only [KState.tcbIdent, Tcb.ident, TcbIdent.created, TcbIdent.mk.injEq] at hident
  obtain ⟨hglobal, -, hu, hspace, hsched⟩ := hident
  refine ⟨sp, hsp, KState.fields_eq_update ?_ hothers⟩
  rw [KState.fields, Tcb.fields, TcbFields.created, hglobal, hspace, hsched]
  cases hnil : a.pagerTid.isNilthread with
  | true =>
    have hnone : utcb = none := by simpa [hnil] using hutcb
    rw [wp_iff_ok.mp (wp_createThread_inactive hnil) _ t h, hu, hnone]
    rfl
  | false =>
    have hchecks := hcreates.2.2.2.2.2.resolve_left (by simp [hnil])
    obtain ⟨hstate, hnew⟩ :=
      wp_iff_ok.mp (wp_createThread_active hnil hchecks.1 hchecks.2.2.1) _ t h
    rw [hstate, hnew]
    rfl

/-- The stubs leave the UTCB of a new thread as it was. -/
theorem keepsUtcb_createThreadWith : Keeps (fun s : KState => (s.tcb dest).utcb)
    ((Helpers.stubs fresh).createThreadWith dest a) := by
  have hset : ∀ {p f}, (∀ d : Tcb, (f d).utcb = d.utcb) →
      Keeps (fun s : KState => (s.tcb dest).utcb) (modTcb p f) := by
    intro p f hf
    refine .modify fun s => ?_
    rcases eq_or_ne dest p with rfl | hne
    · simp [hf]
    · simp [hne]
  have hutcb : ∀ {p f}, Keeps (fun s : KState => (s.tcb dest).utcb) (modUtcb p f) :=
    .bind keeps_getUtcb fun _ => .modify fun _ => rfl
  have hinit : Keeps (fun s : KState => (s.tcb dest).utcb) (stubInit dest a.destTid) := by
    unfold stubInit
    exact hset fun _ => rfl
  have hcreate : Keeps (fun s : KState => (s.tcb dest).utcb)
      ((Helpers.stubs fresh).createInactiveWith dest a.destTid a.schedulerTid) :=
    .bind hinit fun _ => hset fun _ => rfl
  have hspace : Keeps (fun s : KState => (s.tcb dest).utcb)
      ((Helpers.stubs fresh).newThreadSpaceWith a) := by
    unfold Helpers.newThreadSpaceWith Helpers.stubs
    grind
  have hadd : ∀ {o}, Keeps (fun s : KState => (s.tcb dest).utcb) (addTcb o) :=
    .bind keeps_derefSpace fun _ => .modify fun _ => rfl
  have hwait : Keeps (fun s : KState => (s.tcb dest).utcb)
      (fakeWaitForStartup dest a.pagerTid) := by
    unfold fakeWaitForStartup setState setPartner setBr
    refine .bind (hset fun _ => rfl) fun _ => .bind (hset fun _ => rfl) fun _ => ?_
    exact .bind hutcb fun _ => hset fun _ => rfl
  have hloc : ∀ {l}, Keeps (fun s : KState => (s.tcb dest).utcb) (setUtcbLocation dest l) := by
    unfold setUtcbLocation
    exact hset fun _ => rfl
  have hjoin : ∀ {o}, Keeps (fun s : KState => (s.tcb dest).utcb) (setSpace dest o) := by
    unfold setSpace
    exact hset fun _ => rfl
  have hstart : Keeps (fun s : KState => (s.tcb dest).utcb) (do
      if ← (Helpers.stubs fresh).activate dest .threadStartup a.pagerTid then
        fakeWaitForStartup dest a.pagerTid
      else trap .hang) :=
    hwait
  unfold Helpers.createThreadWith
  repeat' first
    | with_reducible exact hstart
    | with_reducible refine Keeps.bind ?_ fun _ => ?_
    | split
  all_goals first | assumption | apply hjoin | apply hadd | apply hloc | exact .pure _

/-- The stubs put the new thread into the same space, if they are lucky with a fresh one. -/
theorem wp_newThreadSpaceWith_stubs {c : Tcb} (hsp : s.newSpace a = some sp)
    (hnone : (s.tcb dest).space = none) {Q : Option SpacePtr → KState → Prop}
    (h : Q (some sp) { s with tcb := Function.update s.tcb dest c }) :
    wp (fun _ => False) ((Helpers.stubs sp).newThreadSpaceWith a) Q
      { s with tcb := Function.update s.tcb dest c } := by
  rw [Helpers.newThreadSpaceWith, wp_ite]
  split
  · rename_i hne
    rw [KState.newSpace, if_neg hne] at hsp
    have hslot : getTcb a.spaceTid ≠ dest := by
      rintro rfl
      rw [hnone] at hsp
      cases hsp
    simpa [hslot, hsp] using h
  · exact h

/-- The creation of a thread with the stubs, from its initialised TCB `c` on. -/
theorem wp_createFrom_stubs {c : Tcb} {utcb : Option UtcbPtr} (hsp : s.newSpace a = some sp)
    (hnone : (s.tcb dest).space = none) (hglobal : c.myselfGlobal = a.destTid)
    (hstate : c.state = .aborted) (hsched : c.scheduler = a.schedulerTid) (hc : c.utcb = utcb)
    (hutcb : a.pagerTid.isNilthread = false → utcb.isSome) :
    wp (fun _ => False) (do
      let space ← (Helpers.stubs sp).newThreadSpaceWith a
      setSpace dest space
      addTcb space
      if !a.pagerTid.isNilthread then
        if ← (Helpers.stubs sp).activate dest .threadStartup a.pagerTid then
          fakeWaitForStartup dest a.pagerTid
        else trap .hang)
      (fun _ t => t.fields = Function.update s.fields dest (.created a sp utcb))
      { s with tcb := Function.update s.tcb dest c } := by
  rw [wp_bind]
  refine wp_newThreadSpaceWith_stubs hsp hnone ?_
  have hfields : ∀ {t : KState} {d : Tcb}, t.tcb = Function.update s.tcb dest d →
      d.fields = .created a sp utcb →
      t.fields = Function.update s.fields dest (.created a sp utcb) := by
    intro t d ht hd
    refine KState.fields_eq_update ?_ fun q hq => ?_
    · rw [KState.fields, ht, Function.update_self, hd]
    · rw [ht, Function.update_of_ne hq]
  cases hnil : a.pagerTid.isNilthread with
  | true =>
    simp only [setSpace, addTcb, wp_bind, wp_modTcb, wp_derefSpace, wp_modSpace, Bool.not_true,
      Bool.false_eq_true, if_false, wp_pure, Function.update_self, Function.update_idem]
    refine ⟨(by cases ·), fun sp' hsp' => hfields rfl ?_⟩
    simp [Tcb.fields, TcbFields.created, hglobal, hstate, hsched, hc, hnil]
  | false =>
    obtain ⟨u, rfl⟩ := Option.isSome_iff_exists.mp (hutcb hnil)
    simp only [setSpace, addTcb, wp_bind, wp_modTcb, wp_derefSpace, wp_modSpace, Bool.not_false,
      if_true, wp_pure, Helpers.stubs, fakeWaitForStartup, setState, setPartner, setBr, wp_modUtcb,
      Function.update_self, Function.update_idem, hc]
    refine ⟨(by cases ·), fun sp' hsp' => ⟨(by cases ·), fun v hv => hfields rfl ?_⟩⟩
    simp [Tcb.fields, TcbFields.created, hglobal, hsched, hnil]

theorem wp_createThreadWith_stubs (hsp : s.newSpace a = some sp)
    (hnone : (s.tcb dest).space = none)
    (hutcb : a.pagerTid.isNilthread = false → (s.tcb dest).utcb.isSome) :
    wp (fun _ => False) ((Helpers.stubs sp).createThreadWith dest a) (fun _ t =>
      t.fields = Function.update s.fields dest (.created a sp (s.tcb dest).utcb)) s := by
  rw [Helpers.createThreadWith, wp_bind, Helpers.createInactiveWith, wp_bind]
  change wp _ (stubInit dest a.destTid) _ _
  rw [stubInit, wp_modTcb, wp_modTcb, wp_ite]
  simp only [Function.update_self, Function.update_idem]
  split
  · rw [wp_bind, setUtcbLocation, wp_modTcb]
    simp only [Function.update_self, Function.update_idem]
    exact wp_createFrom_stubs hsp hnone rfl rfl rfl rfl hutcb
  · exact wp_createFrom_stubs hsp hnone rfl rfl rfl rfl hutcb

/-- A creation passes its checks. -/
theorem createCheck_of_creates (h : s.Creates a) : createCheck a s = .ok (none, s) := by
  obtain ⟨-, -, -, hsched, hid, hpager⟩ := h
  have hid : ¬(a.destTid ≠ a.spaceTid ∧ (s.tcb (getTcb a.spaceTid)).myselfGlobal ≠ a.spaceTid) := by
    tauto
  rw [createCheck]
  simp only [bind_apply, readTcb, gets_apply, hsched, Bool.false_eq_true, if_false, if_neg hid]
  rcases hpager with hnil | ⟨hne, hinit, hloc, hlocates⟩
  · rw [if_pos hnil]
    rfl
  · cases hnil : a.pagerTid.isNilthread with
    | true => rfl
    | false =>
      obtain ⟨sp, hsp⟩ : ∃ sp, (s.tcb (getTcb a.spaceTid)).space = some sp := by
        cases hsp : (s.tcb (getTcb a.spaceTid)).space with
        | none => simp [hsp] at hinit
        | some sp => exact ⟨sp, rfl⟩
      rw [KState.locates_of_space hsp] at hlocates
      rw [hsp, Option.any_some] at hinit
      simp [hne, bind_apply, readSpace, derefSpace, hsp, hinit, hloc, checkUtcbLocation, readTcb,
        hlocates]

/-- The stubs create the thread as the kernel does if its UTCB is the one it is to get. -/
theorem threadCreate_fits (hacc : s.Accepts a) (hnil : a.spaceTid.isNilthread = false)
    (hex : (s.tcb (getTcb a.destTid)).isExisting = false)
    (h : threadCreate (getTcb a.destTid) a s = .ok (r, t)) :
    Fits (fun fresh => (Helpers.stubs fresh).threadCreateWith (getTcb a.destTid) a) s r t ↔
      (s.Creates a → (s.tcb (getTcb a.destTid)).utcb =
        if a.pagerTid.isNilthread then none else s.newUtcb a) := by
  obtain ⟨o, s', hcheck, hrest⟩ := bind_eq_ok.mp h
  obtain ⟨rfl, hcreates⟩ := wp_iff_ok.mp (wp_createCheck_creates hacc hnil hex) o s' hcheck
  cases o with
  | some err =>
    refine iff_of_true (.of_eq fun fresh => ?_) fun hc => ?_
    · rw [Helpers.threadCreateWith, bind_apply, hcheck]
      exact hrest
    · rw [createCheck_of_creates hc] at hcheck
      cases hcheck
  | none =>
    have hcreates := hcreates rfl
    obtain ⟨_, t1, h1, h2⟩ := bind_eq_ok.mp hrest
    cases h2
    obtain ⟨sp, hsp, hfields⟩ := createThread_fields hcreates h1
    have hstub : ∀ fresh, (Helpers.stubs fresh).threadCreateWith (getTcb a.destTid) a s' =
        ((Helpers.stubs fresh).createThreadWith (getTcb a.destTid) a >>= fun _ => pure true)
          s' := by
      intro fresh
      rw [Helpers.threadCreateWith, bind_apply, hcheck]
    have hnone : (s'.tcb (getTcb a.destTid)).space = none := by
      simpa [Tcb.isExisting] using hex
    constructor
    · rintro ⟨fresh, t', hrun, hsame⟩ -
      have hrun : (Helpers.stubs fresh).threadCreateWith (getTcb a.destTid) a s' = .ok (true, t') :=
        hrun
      rw [hstub] at hrun
      obtain ⟨_, t2, hrun, h2⟩ := bind_eq_ok.mp hrun
      cases h2
      have hkept : (t'.tcb (getTcb a.destTid)).utcb = (s'.tcb (getTcb a.destTid)).utcb :=
        keepsUtcb_createThreadWith s' _ t' hrun
      have hutcb : (t'.fields (getTcb a.destTid)).utcb = (t.fields (getTcb a.destTid)).utcb :=
        congrArg (fun f => (f (getTcb a.destTid)).utcb) hsame
      rw [hfields, Function.update_self] at hutcb
      exact hkept.symm.trans hutcb
    · intro hutcb
      have hutcb := hutcb hcreates
      have hsome : a.pagerTid.isNilthread = false →
          (s'.tcb (getTcb a.destTid)).utcb.isSome := by
        intro hpager
        obtain ⟨sp', utcb, hsome, -, hident⟩ := wp_iff_ok.mp wp_createThread _ t h1
        have hu : (t.fields (getTcb a.destTid)).utcb = utcb := congrArg TcbIdent.utcb hident
        rw [hfields, Function.update_self] at hu
        have hu : (if a.pagerTid.isNilthread then none else s'.newUtcb a) = utcb := hu
        rw [hutcb, hu, hsome, hpager]
        rfl
      obtain ⟨_, t', hrun, ht'⟩ := wp_iff_exists.mp (wp_createThreadWith_stubs hsp hnone hsome)
      refine ⟨sp, t', ?_, ?_⟩
      · change (Helpers.stubs sp).threadCreateWith (getTcb a.destTid) a s' = _
        rw [hstub, bind_apply, hrun]
        rfl
      · rw [ht', hfields, hutcb]

/-! ## Interrupts -/

/-- An interrupt that is attached to an empty TCB: what the kernel's call is behind the
initialisation of the TCB. -/
theorem threadControlInterruptWith_inactive
    (hirq : a.destTid.isInterrupt ∧ isIrqAvailable a.destTid.getIrqno)
    (hact : (s.tcb (getTcb a.destTid)).isActivated = false) {c : Tcb}
    (hinit : H.init (getTcb a.destTid) a.destTid s =
      .ok ((), { s with tcb := Function.update s.tcb (getTcb a.destTid) c })) :
    ∃ t, H.threadControlInterruptWith a.destTid a.pagerTid s = .ok (true, t) ∧
      t.fields = Function.update s.fields (getTcb a.destTid)
        ⟨c.myselfGlobal, if a.destTid = a.pagerTid then .aborted else .halted, a.pagerTid, c.space,
          some .irq⟩ := by
  have hcond : ¬((!a.destTid.isInterrupt) = true ∨
      (!isIrqAvailable a.destTid.getIrqno) = true) := by
    simp [hirq]
  rw [Helpers.threadControlInterruptWith]
  simp only [if_neg hcond, bind_apply, readTcb, gets_apply, hact, Bool.false_eq_true, false_and,
    if_false, Bool.not_false, if_true, Helpers.createKernelThreadWith, hinit, modTcb, modify_apply,
    setPriority, notify, pushFrame, setScheduler, Function.update_self, Function.update_idem]
  by_cases hself : a.destTid = a.pagerTid
  · rw [if_pos hself, if_pos hself]
    refine ⟨_, rfl, KState.fields_eq_update ?_ fun q hq => ?_⟩
    · simp [KState.fields, Tcb.fields]
    · simp [hq]
  · rw [if_neg hself, if_neg hself]
    refine ⟨_, rfl, KState.fields_eq_update ?_ fun q hq => ?_⟩
    · simp [KState.fields, Tcb.fields]
    · simp [hq]

/-- An interrupt id that is not accepted, or whose TCB is in use, calls no helper. -/
theorem threadControlInterruptWith_active {K : Helpers}
    (h : ¬(a.destTid.isInterrupt ∧ isIrqAvailable a.destTid.getIrqno) ∨
      (s.tcb (getTcb a.destTid)).isActivated) :
    H.threadControlInterruptWith a.destTid a.pagerTid s =
      K.threadControlInterruptWith a.destTid a.pagerTid s := by
  rw [Helpers.threadControlInterruptWith, Helpers.threadControlInterruptWith]
  by_cases hirq : a.destTid.isInterrupt ∧ isIrqAvailable a.destTid.getIrqno
  · have hact : (s.tcb (getTcb a.destTid)).isActivated = true := h.resolve_left (not_not.mpr hirq)
    have hcond : ¬((!a.destTid.isInterrupt) = true ∨
        (!isIrqAvailable a.destTid.getIrqno) = true) := by
      simp [hirq]
    simp only [if_neg hcond, bind_apply, readTcb, gets_apply, hact, Bool.not_true,
      Bool.false_eq_true, if_false]
  · have hcond : (!a.destTid.isInterrupt) = true ∨ (!isIrqAvailable a.destTid.getIrqno) = true := by
      simpa [Classical.or_iff_not_imp_left] using hirq
    simp only [if_pos hcond]

theorem init_apply : Kernel.init p tid s =
    .ok ((), { s with tcb := Function.update s.tcb p ((s.tcb p).init tid) }) := by
  have hwp : wp (fun _ => False) (Kernel.init p tid)
      (fun _ t => t = { s with tcb := Function.update s.tcb p ((s.tcb p).init tid) }) s :=
    wp_init.mpr rfl
  obtain ⟨_, t, hrun, ht⟩ := wp_iff_exists.mp hwp
  rw [hrun, ht]

/-- The stub of the initialisation leaves the space of an interrupt thread as it was. -/
theorem threadControlInterrupt_fits
    (hirq : a.destTid.isInterrupt ∧ isIrqAvailable a.destTid.getIrqno)
    (hact : (s.tcb (getTcb a.destTid)).isActivated = false) {t' : KState}
    (h : threadControlInterrupt a.destTid a.pagerTid s = .ok (true, t))
    (h' : (Helpers.stubs fresh).threadControlInterruptWith a.destTid a.pagerTid s =
      .ok (true, t')) :
    t'.fields = t.fields ↔ (s.tcb (getTcb a.destTid)).space = none := by
  rw [← Helpers.threadControlInterruptWith_kernel] at h
  obtain ⟨t1, h1, hfields⟩ := threadControlInterruptWith_inactive (H := Helpers.kernel) hirq hact
    init_apply
  obtain ⟨t2, h2, hfields'⟩ := threadControlInterruptWith_inactive (H := Helpers.stubs fresh)
    (c := { s.tcb (getTcb a.destTid) with
      myselfGlobal := a.destTid, myselfLocal := .nilthread, state := .aborted }) hirq hact rfl
  obtain rfl : t = t1 := by
    rw [h] at h1
    cases h1
    rfl
  obtain rfl : t' = t2 := by
    rw [h'] at h2
    cases h2
    rfl
  rw [hfields, hfields']
  constructor
  · intro heq
    have hspace := congrArg TcbFields.space (congrFun heq (getTcb a.destTid))
    rw [Function.update_self, Function.update_self] at hspace
    exact hspace
  · intro hnone
    rw [hnone]
    rfl

/-! ## The call -/

/-- The location and the space specifier of a modification by the call are accepted. -/
def KState.Specifies (s : KState) (a : ThreadControlArgs) : Prop :=
  s.Accepts a ∧ a.spaceTid.isNilthread = false ∧ (s.tcb (getTcb a.destTid)).isExisting ∧
    s.Specified (getTcb a.destTid) a

/-- The call does nothing that the stubs leave out. -/
structure KState.StubsFit (s : KState) (a : ThreadControlArgs) : Prop where
  delete : ¬s.Deletes a
  migrate : s.Specifies a →
    (s.tcb (getTcb a.destTid)).space = (s.tcb (getTcb a.spaceTid)).space
  activate : s.Specifies a → a.pagerTid.isNilthread ∨ (s.tcb (getTcb a.destTid)).isActivated ∨
    s.locates (getTcb a.destTid) a.utcbLocation = false
  create : s.Creates a → (s.tcb (getTcb a.destTid)).utcb =
    if a.pagerTid.isNilthread then none else s.newUtcb a
  attach : s.Attaches a → (s.tcb (getTcb a.destTid)).isActivated = false →
    (s.tcb (getTcb a.destTid)).space = none

/-- The branches of the call over any helpers. -/
theorem Helpers.sysThreadControlWith_apply : H.sysThreadControlWith a s =
    if ¬s.Privileged then failWith enoPrivilege s
    else if a.destTid.isGlobal = false then failWith einvalidSpace s
    else if a.destTid.getThreadno < systemBase then
      (H.threadControlInterruptWith a.destTid a.pagerTid >>= fun b =>
        if b then pure true else failWith einvalidThread) s
    else if a.destTid.getThreadno < userBase then failWith einvalidThread s
    else if a.spaceTid.isNilthread then H.threadDeleteWith (getTcb a.destTid) s
    else if (s.tcb (getTcb a.destTid)).isExisting then H.threadModifyWith (getTcb a.destTid) a s
    else H.threadCreateWith (getTcb a.destTid) a s := by
  have hpriv : isPrivilegedSpace s.current.space s = .ok (decide s.Privileged, s) := by
    have hwp : wp (fun _ => False) (isPrivilegedSpace s.current.space)
        (fun b t => b = decide s.Privileged ∧ t = s) s :=
      wp_isPrivilegedSpace.mpr ⟨rfl, rfl⟩
    obtain ⟨b, t, hrun, rfl, rfl⟩ := wp_iff_exists.mp hwp
    exact hrun
  have hspace : getCurrentSpace s = .ok (s.current.space, s) := rfl
  rw [sysThreadControlWith, bind_apply, hspace]
  simp only [bind_apply, hpriv]
  by_cases h1 : s.Privileged
  · by_cases h2 : a.destTid.isGlobal
    · simp only [h1, h2, decide_true, Bool.not_true, Bool.false_eq_true, if_false,
        not_true_eq_false]
      repeat' split
      all_goals first | rfl | simp_all [bind_apply, readTcb]
    · simp [h1, h2]
  · simp [h1]

/-- An interrupt id is global. -/
theorem ThreadId.isGlobal_of_isInterrupt (h : tid.isInterrupt) : tid.isGlobal := by
  simp only [isInterrupt, getVersion, Bool.and_eq_true, beq_iff_eq] at h
  have hmod : tid.raw.toNat % 64 = 1 := by omega
  simp [isGlobal, hmod]

theorem ThreadId.getThreadno_lt_of_isInterrupt (h : tid.isInterrupt) :
    tid.getThreadno < systemBase := by
  simp only [isInterrupt, Bool.and_eq_true, decide_eq_true_eq] at h
  exact h.2

/-- The stubs fit a call that neither reaches a user thread nor attaches to an empty TCB. -/
theorem KState.StubsFit.of_not_accepts (h : ¬s.Accepts a)
    (hattach : s.Attaches a → (s.tcb (getTcb a.destTid)).isActivated = false →
      (s.tcb (getTcb a.destTid)).space = none) : s.StubsFit a where
  delete hd := h hd.1
  migrate hspec := absurd hspec.1 h
  activate hspec := absurd hspec.1 h
  create hc := absurd hc.1 h
  attach := hattach

/-- A call on a user thread attaches no interrupt. -/
theorem KState.Accepts.not_attaches (h : s.Accepts a) : ¬s.Attaches a := by
  intro hattach
  have hlt := ThreadId.getThreadno_lt_of_isInterrupt hattach.2.1
  have hle := h.2.2
  have hbase : userBase = systemBase + 32 := rfl
  omega

/-- The stubs fit the call on an interrupt id if they fit the attachment to an empty TCB. -/
theorem interrupt_stubsFit (hpriv : s.Privileged) (hglobal : a.destTid.isGlobal)
    (hlt : a.destTid.getThreadno < systemBase) (h : sysThreadControl a s = .ok (r, t)) :
    Fits (fun fresh => (Helpers.stubs fresh).sysThreadControlWith a) s r t ↔ s.StubsFit a := by
  have huser : ¬s.Accepts a := by
    intro hacc
    have hle := hacc.2.2
    have hbase : userBase = systemBase + 32 := rfl
    omega
  have hbranch : ∀ H : Helpers, H.sysThreadControlWith a s =
      (H.threadControlInterruptWith a.destTid a.pagerTid >>= fun b =>
        if b then pure true else failWith einvalidThread) s := by
    intro H
    rw [Helpers.sysThreadControlWith_apply, if_neg (not_not.mpr hpriv), if_neg (by simp [hglobal]),
      if_pos hlt]
  rw [← Helpers.sysThreadControlWith_kernel, hbranch, bind_apply] at h
  simp only [Fits, hbranch, bind_apply]
  by_cases hactive : ¬(a.destTid.isInterrupt ∧ isIrqAvailable a.destTid.getIrqno) ∨
      (s.tcb (getTcb a.destTid)).isActivated
  · refine iff_of_true ⟨.idle, t, ?_, rfl⟩ (.of_not_accepts huser fun hattach hno => ?_)
    · rw [threadControlInterruptWith_active hactive (K := Helpers.kernel), h]
    · rcases hactive with hirq | hact
      · exact absurd ⟨hattach.2.1, hattach.2.2.1⟩ hirq
      · rw [hact] at hno
        cases hno
  · obtain ⟨hirq, hno⟩ := not_or.mp hactive
    have hirq := not_not.mp hirq
    have hno : (s.tcb (getTcb a.destTid)).isActivated = false := by simpa using hno
    obtain ⟨t1, h1, -⟩ := threadControlInterruptWith_inactive (H := Helpers.kernel) hirq hno
      init_apply
    rw [h1] at h
    cases h
    rw [Helpers.threadControlInterruptWith_kernel] at h1
    have hstub : ∀ fresh, ∃ t2,
        (Helpers.stubs fresh).threadControlInterruptWith a.destTid a.pagerTid s = .ok (true, t2) ∧
          (t2.fields = t.fields ↔ (s.tcb (getTcb a.destTid)).space = none) := by
      intro fresh
      obtain ⟨t2, h2, -⟩ := threadControlInterruptWith_inactive (H := Helpers.stubs fresh)
        (c := { s.tcb (getTcb a.destTid) with
          myselfGlobal := a.destTid, myselfLocal := .nilthread, state := .aborted }) hirq hno rfl
      exact ⟨t2, h2, threadControlInterrupt_fits hirq hno h1 h2⟩
    have hattaches : s.Attaches a := ⟨hpriv, hirq.1, hirq.2, fun hact => by simp [hno] at hact⟩
    constructor
    · rintro ⟨fresh, t', hrun, hsame⟩
      obtain ⟨t2, h2, hiff⟩ := hstub fresh
      rw [h2] at hrun
      cases hrun
      exact .of_not_accepts huser fun _ _ => hiff.mp hsame
    · intro hfit
      obtain ⟨t2, h2, hiff⟩ := hstub .idle
      refine ⟨.idle, t2, ?_, hiff.mpr (hfit.attach hattaches hno)⟩
      rw [h2]
      rfl

/-- The stubs fit the call on a user thread if they fit its deletion, modification or creation. -/
theorem user_stubsFit (hacc : s.Accepts a) (h : sysThreadControl a s = .ok (r, t)) :
    Fits (fun fresh => (Helpers.stubs fresh).sysThreadControlWith a) s r t ↔ s.StubsFit a := by
  have hbranch : ∀ H : Helpers, H.sysThreadControlWith a s =
      if a.spaceTid.isNilthread then H.threadDeleteWith (getTcb a.destTid) s
      else if (s.tcb (getTcb a.destTid)).isExisting then H.threadModifyWith (getTcb a.destTid) a s
      else H.threadCreateWith (getTcb a.destTid) a s := by
    intro H
    have hbase : userBase = systemBase + 32 := rfl
    have hle := hacc.2.2
    rw [Helpers.sysThreadControlWith_apply, if_neg (not_not.mpr hacc.1),
      if_neg (by simp [hacc.2.1]), if_neg (by omega), if_neg (by omega)]
  rw [← Helpers.sysThreadControlWith_kernel, hbranch] at h
  have hattach : s.Attaches a → (s.tcb (getTcb a.destTid)).isActivated = false →
      (s.tcb (getTcb a.destTid)).space = none := fun hattach => absurd hattach hacc.not_attaches
  simp only [Fits, hbranch]
  cases hnil : a.spaceTid.isNilthread with
  | true =>
    rw [if_pos hnil, Helpers.threadDeleteWith_kernel] at h
    simp only [if_true]
    refine (threadDelete_fits h).trans ⟨fun hno => ?_, fun hfit hd => ?_⟩
    · exact
        { delete := fun hd => hno hd.2.2
          migrate := fun hspec => by simp [hspec.2.1] at hnil
          activate := fun hspec => by simp [hspec.2.1] at hnil
          create := fun hc => by simp [hc.2.1] at hnil
          attach := hattach }
    · exact hfit.delete ⟨hacc, hnil, hd⟩
  | false =>
    rw [if_neg (by simp [hnil])] at h
    simp only [Bool.false_eq_true, if_false]
    have hdelete : ¬s.Deletes a := fun hd => by simp [hd.2.1] at hnil
    cases hex : (s.tcb (getTcb a.destTid)).isExisting with
    | true =>
      rw [if_pos hex, Helpers.threadModifyWith_kernel] at h
      simp only [if_true]
      refine (threadModify_fits h).trans ⟨fun hfit => ?_, fun hfit hspec => ?_⟩
      · exact
          { delete := hdelete
            migrate := fun hspec => (hfit hspec.2.2.2).1
            activate := fun hspec => (hfit hspec.2.2.2).2
            create := fun hc => by simp [hc.2.2.1] at hex
            attach := hattach }
      · exact ⟨hfit.migrate ⟨hacc, hnil, hex, hspec⟩, hfit.activate ⟨hacc, hnil, hex, hspec⟩⟩
    | false =>
      rw [if_neg (by simp [hex])] at h
      simp only [Bool.false_eq_true, if_false]
      have hcreate : threadCreate (getTcb a.destTid) a s = .ok (r, t) := by
        rw [← h, Helpers.threadCreateWith_kernel]
      have hiff := threadCreate_fits hacc hnil hex hcreate
      refine hiff.trans ⟨fun hfit => ?_, fun hfit => hfit.create⟩
      exact
        { delete := hdelete
          migrate := fun hspec => by simp [hspec.2.2.1] at hex
          activate := fun hspec => by simp [hspec.2.2.1] at hex
          create := hfit
          attach := hattach }

/-- The stubs lead a call to its result and its fields just if the call does nothing that they
leave out. -/
theorem stubsAgree_iff (h : sysThreadControl a s = .ok (r, t)) : s.StubsAgree a ↔ s.StubsFit a := by
  have hfits : s.StubsAgree a ↔
      Fits (fun fresh => (Helpers.stubs fresh).sysThreadControlWith a) s r t := by
    refine ⟨fun hagree => hagree r t h, fun hfits r' t' hrun => ?_⟩
    rw [h] at hrun
    cases hrun
    exact hfits
  rw [hfits]
  by_cases hpriv : s.Privileged
  · cases hglobal : a.destTid.isGlobal with
    | true =>
      by_cases hlt : a.destTid.getThreadno < systemBase
      · exact interrupt_stubsFit hpriv hglobal hlt h
      · by_cases huser : userBase ≤ a.destTid.getThreadno
        · exact user_stubsFit ⟨hpriv, hglobal, huser⟩ h
        · have hfail : ∀ H : Helpers, H.sysThreadControlWith a s = failWith einvalidThread s := by
            intro H
            rw [Helpers.sysThreadControlWith_apply, if_neg (not_not.mpr hpriv),
              if_neg (by simp [hglobal]), if_neg hlt, if_pos (Nat.lt_of_not_le huser)]
          refine iff_of_true (.of_eq fun fresh => ?_) (.of_not_accepts ?_ ?_)
          · rw [← h, ← Helpers.sysThreadControlWith_kernel, hfail, hfail]
          · exact fun hacc => huser hacc.2.2
          · exact fun hattach => absurd (ThreadId.getThreadno_lt_of_isInterrupt hattach.2.1) hlt
    | false =>
      refine iff_of_true (.of_eq fun fresh => ?_) (.of_not_accepts ?_ ?_)
      · rw [← h, ← Helpers.sysThreadControlWith_kernel, Helpers.sysThreadControlWith_apply,
          Helpers.sysThreadControlWith_apply, if_pos hglobal, if_pos hglobal]
      · exact fun hacc => by simp [hacc.2.1] at hglobal
      · exact fun hattach => by simp [ThreadId.isGlobal_of_isInterrupt hattach.2.1] at hglobal
  · refine iff_of_true (.of_eq fun fresh => ?_) (.of_not_accepts (fun hacc => hpriv hacc.1) ?_)
    · rw [← h, ← Helpers.sysThreadControlWith_kernel, Helpers.sysThreadControlWith_apply,
        Helpers.sysThreadControlWith_apply, if_pos hpriv, if_pos hpriv]
    · exact fun hattach => absurd hattach.1 hpriv

/-! ## The state of the harness -/

theorem harnessTcb_tcb {n : Nat} (h : n < 320) :
    KState.harness.tcb (harnessTcb n) = harnessThread n := by
  have hslot : (ThreadId.threadid n 1).getThreadno % 2 ^ validThreadnoBits = n := by
    simp only [ThreadId.threadid, ThreadId.getThreadno, BitVec.toNat_ofNat, validThreadnoBits]
    omega
  simp only [KState.harness, harnessTcb, getTcb, hslot]

theorem harness_prepared : KState.harness.Prepared := by
  have hspace : ∀ sp, (KState.harness.space sp).Prepared := fun sp => ⟨rfl, rfl⟩
  have huser : ∀ n, 67 ≤ n → n < 320 →
      (KState.harness.tcb (harnessTcb n)).space = some (.heap n) ∧
        (KState.harness.tcb (harnessTcb n)).isActivated = decide (n < 164) := by
    intro n hlow hhigh
    rw [harnessTcb_tcb hhigh, harnessThread, if_neg (by omega), if_neg (by omega),
      if_neg (by omega), if_pos hhigh]
    refine ⟨rfl, ?_⟩
    by_cases hn : n < 164 <;> simp [Tcb.isActivated, hn]
  refine ⟨⟨.heap 66, rfl, hspace _⟩, ⟨.heap 64, rfl, rfl, hspace _⟩, rfl, rfl, rfl, ⟨rfl, rfl⟩,
    fun n hlow hhigh => ⟨.heap n, (huser n hlow hhigh).1, hspace _, fun m hm hm' hsame => ?_⟩,
    fun n hlow hhigh => ?_, fun n hlow hhigh => ?_⟩
  · rw [(huser m hm hm').1] at hsame
    cases hsame
    rfl
  · rw [(huser n hlow (by omega)).2]
    simpa using hhigh
  · rw [(huser n (by omega) hhigh).2]
    simpa using hlow

/-- A new scheduler for a thread of the harness. -/
theorem harness_stubsAgree : ∃ a r t, sysThreadControl a .harness = .ok (r, t) ∧
    KState.harness.Specifies a ∧ KState.harness.StubsAgree a := by
  have hrun : returnsWith (sysThreadControl ⟨.threadid 67 1, .threadid 67 1, .threadid 66 1,
      .nilthread, noLocation⟩) (fun _ _ => true) .harness = true := by decide +kernel
  obtain ⟨r, t, hcall, -⟩ := exists_of_returnsWith hrun
  refine ⟨_, r, t, hcall, ⟨?_, rfl, rfl, .inl rfl, rfl⟩, (stubsAgree_iff hcall).mpr
    ⟨?_, fun _ => rfl, fun _ => .inl rfl, fun hc => ?_, fun hattach => ?_⟩⟩
  · decide +kernel
  · decide +kernel
  · exact absurd hc.2.2.1 (by decide +kernel)
  · exact absurd hattach.2.1 (by decide +kernel)

/-- The stub of the migration fails the call that moves a thread of the harness into the space of
another. -/
theorem harness_not_stubsAgree : ∃ s a, KState.Prepared s ∧
    a.destTid.isGlobal ∧ a.spaceTid.isNilthread = false ∧ 67 ≤ a.destTid.getThreadno ∧
    a.destTid.getThreadno < 320 ∧ ¬s.StubsAgree a := by
  refine ⟨.harness, ⟨.threadid 67 1, .threadid 68 1, .nilthread, .nilthread, noLocation⟩,
    harness_prepared, by decide, by decide, by decide, by decide, fun hagree => ?_⟩
  have hrun : returnsWith (sysThreadControl ⟨.threadid 67 1, .threadid 68 1, .nilthread, .nilthread,
      noLocation⟩) (fun r _ => r) .harness = true := by decide +kernel
  obtain ⟨r, t, hcall, rfl⟩ := exists_of_returnsWith hrun
  obtain ⟨fresh, t', hstub, -⟩ := hagree true t hcall
  rw [Helpers.sysThreadControlWith_apply, if_neg (by decide +kernel), if_neg (by decide),
    if_neg (by decide), if_neg (by decide), if_neg (by decide), if_pos (by decide +kernel),
    Helpers.threadModifyWith_specified ⟨.inl rfl, rfl⟩,
    Helpers.modifyThreadWith_moved (by decide +kernel)] at hstub
  have hfail : failWith enoMem .harness = .ok (true, t') := hstub
  cases failWith_result hfail

end L4Thread
