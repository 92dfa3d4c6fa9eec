import L4Thread.Theory.Ident
import L4Thread.Theory.Wp

/-!
# The effect of thread control on TCBs

Which TCBs `SYS_THREAD_CONTROL` changes the identity of, and what it makes of the destination.
-/

namespace L4Thread

open TrapM Kernel

/-- The identities of all TCBs. -/
def KState.tcbIdent (s : KState) (p : TcbPtr) : TcbIdent := (s.tcb p).ident

/-- The identities of all TCBs but `p`. -/
def KState.identExcept (p : TcbPtr) (s : KState) (q : { q // q ≠ p }) : TcbIdent := s.tcbIdent q

theorem KState.tcbIdent_eq {s t : KState} (h : t.ident = s.ident) : t.tcbIdent = s.tcbIdent := by
  simp only [KState.ident, Ident.mk.injEq] at h
  exact h.1

/-! ## Functions that keep the identity of every TCB -/

section Memory

abbrev KeepsTcbIdent {α : Type} (x : Kernel α) : Prop := Keeps KState.tcbIdent x

variable {α : Type} {x : Kernel α} {p : TcbPtr} {sp : Option SpacePtr} {ptr : SpacePtr}

@[grind →] theorem KeepsIdent.tcbIdent (h : KeepsIdent x) : KeepsTcbIdent x := h.comp Ident.tcb

@[grind ←] theorem keepsTcbIdent_modSpace {f : Space → Space} : KeepsTcbIdent (modSpace ptr f) :=
  .modify fun _ => rfl

@[grind ←] theorem keepsTcbIdent_modKmem {f : Kmem → Kmem} : KeepsTcbIdent (modKmem f) :=
  .modify fun _ => rfl

@[grind ←] theorem keepsTcbIdent_zeroUtcbPage {n : Nat} : KeepsTcbIdent (zeroUtcbPage n) :=
  .modify fun _ => rfl

@[grind ←] theorem keepsTcbIdent_allocateSpace : KeepsTcbIdent allocateSpace := by
  unfold allocateSpace
  grind

@[grind ←] theorem keepsTcbIdent_freeSpace : KeepsTcbIdent (freeSpace ptr) := by
  unfold freeSpace
  grind

@[grind ←] theorem keepsTcbIdent_unmapSpace : KeepsTcbIdent (unmapSpace ptr) := by
  unfold unmapSpace
  grind

@[grind ←] theorem keepsTcbIdent_addTcb : KeepsTcbIdent (addTcb sp) := by
  unfold addTcb
  grind

@[grind ←] theorem keepsTcbIdent_removeTcb : KeepsTcbIdent (removeTcb sp) := by
  unfold removeTcb
  grind

@[grind ←] theorem keepsTcbIdent_allocateUtcb {loc : Word} :
    KeepsTcbIdent (allocateUtcb sp loc) := by
  unfold allocateUtcb
  repeat' first | with_reducible refine Keeps.bind ?_ fun _ => ?_ | split
  all_goals grind

end Memory

/-! ## Functions that keep the identity of every other TCB -/

section Others

variable {α : Type} {x : Kernel α} {p q : TcbPtr} {tid tid' : ThreadId}

abbrev KeepsOthers {α : Type} (p : TcbPtr) (x : Kernel α) : Prop := Keeps (KState.identExcept p) x

@[grind ←] theorem KeepsTcbIdent.others (h : KeepsTcbIdent x) : KeepsOthers p x :=
  h.comp fun f (q : { q // q ≠ p }) => f q

@[grind ←] theorem KeepsIdent.others (h : KeepsIdent x) : KeepsOthers p x := h.tcbIdent.others

@[grind ←] theorem keepsOthers_modTcb {f : Tcb → Tcb} : KeepsOthers p (modTcb p f) := by
  refine .modify fun s => ?_
  funext ⟨q, hq⟩
  simp [KState.identExcept, KState.tcbIdent, hq]

attribute [grind] setSpace setScheduler setUtcbLocation

@[grind ←] theorem keepsIdent_initTcb : KeepsIdent (initTcb p) := by
  unfold initTcb
  grind

@[grind ←] theorem keepsOthers_init : KeepsOthers p (init p tid) := by
  unfold init
  grind

@[grind ←] theorem keepsOthers_createKernelThread {u : UtcbPtr} :
    KeepsOthers p (createKernelThread p tid u) := by
  unfold createKernelThread
  grind

@[grind ←] theorem keepsOthers_createInactive : KeepsOthers p (createInactive p tid tid') := by
  unfold createInactive
  grind

@[grind ←] theorem keepsOthers_setGlobalId : KeepsOthers p (setGlobalId p tid) := by
  unfold setGlobalId
  grind

@[grind ←] theorem keepsOthers_activate {n : Notify} : KeepsOthers p (activate p n tid) := by
  unfold activate setPager createStartupStack
  repeat' with_reducible refine Keeps.bind ?_ fun _ => ?_
  all_goals grind

@[grind ←] theorem keepsIdent_fakeWaitForStartup : KeepsIdent (fakeWaitForStartup p tid) := by
  unfold fakeWaitForStartup
  grind

@[grind ←] theorem keepsOthers_startThread : KeepsOthers p (startThread p tid) := by
  unfold startThread
  grind

@[grind ←] theorem keepsOthers_deleteTcb : KeepsOthers p (deleteTcb p) := by
  unfold deleteTcb
  repeat' first | with_reducible refine Keeps.bind ?_ fun _ => ?_ | split
  all_goals grind

@[grind ←] theorem keepsOthers_migrateToSpace {sp : Option SpacePtr} :
    KeepsOthers p (migrateToSpace p sp) := by
  unfold migrateToSpace
  repeat' first | with_reducible refine Keeps.bind ?_ fun _ => ?_ | split
  all_goals grind

end Others

section Calls

variable {a : ThreadControlArgs} {dest : TcbPtr} {irqTid handlerTid : ThreadId}

@[grind ←] theorem keepsIdent_failWith {err : Word} : KeepsIdent (failWith err) := by
  unfold failWith
  grind

@[grind ←] theorem keepsOthers_threadControlInterrupt :
    KeepsOthers (getTcb irqTid) (threadControlInterrupt irqTid handlerTid) := by
  unfold threadControlInterrupt
  dsimp only
  repeat' first | with_reducible refine Keeps.bind ?_ fun _ => ?_ | split
  all_goals grind

@[grind ←] theorem keepsOthers_threadDelete : KeepsOthers dest (threadDelete dest) := by
  unfold threadDelete
  repeat' first | with_reducible refine Keeps.bind ?_ fun _ => ?_ | split
  all_goals grind

@[grind ←] theorem keepsOthers_modifyUtcbLocation {loc : Word} :
    KeepsOthers dest (modifyUtcbLocation dest loc) := by
  unfold modifyUtcbLocation checkUtcbLocation
  repeat' first | with_reducible refine Keeps.bind ?_ fun _ => ?_ | split
  all_goals grind

@[grind ←] theorem keepsOthers_modifyPager : KeepsOthers dest (modifyPager dest a) := by
  unfold modifyPager checkUtcbLocation setPager
  repeat' first | with_reducible refine Keeps.bind ?_ fun _ => ?_ | split
  all_goals grind

@[grind ←] theorem keepsOthers_modifySettings : KeepsOthers dest (modifySettings dest a) := by
  unfold modifySettings
  repeat' first | with_reducible refine Keeps.bind ?_ fun _ => ?_ | split
  all_goals grind

@[grind ←] theorem keepsOthers_modifyThread {sp : Option SpacePtr} :
    KeepsOthers dest (modifyThread dest a sp) := by
  unfold modifyThread
  grind

@[grind ←] theorem keepsOthers_threadModify : KeepsOthers dest (threadModify dest a) := by
  unfold threadModify
  repeat' first | with_reducible refine Keeps.bind ?_ fun _ => ?_ | split
  all_goals grind

@[grind ←] theorem keepsIdent_createCheck : KeepsIdent (createCheck a) := by
  unfold createCheck checkUtcbLocation
  repeat' first | with_reducible refine Keeps.bind ?_ fun _ => ?_ | split
  all_goals grind

@[grind ←] theorem keepsTcbIdent_newThreadSpace : KeepsTcbIdent (newThreadSpace a) := by
  unfold newThreadSpace
  grind

@[grind ←] theorem keepsOthers_createThread : KeepsOthers dest (createThread dest a) := by
  unfold createThread
  repeat' first | with_reducible refine Keeps.bind ?_ fun _ => ?_ | split
  all_goals grind

/-- A call changes the identity of the TCB its destination id selects only. -/
theorem keepsOthers_sysThreadControl :
    KeepsOthers (getTcb a.destTid) (sysThreadControl a) := by
  unfold sysThreadControl threadCreate isPrivilegedSpace isRoottaskSpace isSigma0Space
    isSigma1Space
  dsimp only
  repeat' first | with_reducible refine Keeps.bind ?_ fun _ => ?_ | split
  all_goals grind

end Calls

/-! ## The slots below the user threads -/

/-- A creation without a pager, in the space of an existing thread, succeeds and puts the thread
into the slot of its id. -/
theorem sysThreadControl_create {s : KState} {a : ThreadControlArgs} {sp : SpacePtr}
    (hpriv : s.Privileged) (hglobal : a.destTid.isGlobal) (hno : userBase ≤ a.destTid.getThreadno)
    (hnew : (s.tcb (getTcb a.destTid)).isExisting = false) (hspace : a.spaceTid.isNilthread = false)
    (hne : a.destTid ≠ a.spaceTid) (hslot : getTcb a.spaceTid ≠ getTcb a.destTid)
    (hid : (s.tcb (getTcb a.spaceTid)).myselfGlobal = a.spaceTid)
    (hsp : (s.tcb (getTcb a.spaceTid)).space = some sp)
    (hsched : a.schedulerTid.isNilthread = false) (hpager : a.pagerTid.isNilthread) :
    ∃ t, sysThreadControl a s = .ok (true, t) ∧
      (t.tcb (getTcb a.destTid)).space = some sp := by
  have h1 : ¬a.destTid.getThreadno < systemBase := by
    simp only [userBase] at hno
    omega
  have h2 : ¬a.destTid.getThreadno < userBase := by omega
  have hwp : wp (fun _ => False) (sysThreadControl a)
      (fun r t => r = true ∧ (t.tcb (getTcb a.destTid)).space = some sp) s := by
    simp [wp_sysThreadControl, threadCreate, createCheck, createThread, createInactive,
      newThreadSpace, setUtcbLocation, setSpace, addTcb, wp_derefSpace, hpriv, hglobal, h1, h2,
      hnew, hspace, hne, hslot, hid, hsp, hsched, hpager]
  obtain ⟨r, t, h, rfl, ht⟩ := wp_iff_exists.mp hwp
  exact ⟨t, h, ht⟩

/-- No call for `dest` touches a TCB below the user threads, other than that of an interrupt. -/
def KeepsLowSlots (dest : ThreadId) : Prop :=
  ∀ s, Reachable (fun _ _ => True) s → ∀ a r t, a.destTid = dest →
    sysThreadControl a s = .ok (r, t) → ∀ i : Fin (2 ^ validThreadnoBits), i.val < userBase →
      t.tcbIdent (.t i) = s.tcbIdent (.t i) ∨
        dest.getThreadno < systemBase ∧ getTcb dest = .t i

/-- A rejected call keeps the identity of all TCBs. -/
theorem sysThreadControl_rejected {s t : KState} {a : ThreadControlArgs} {r : Bool}
    (h : sysThreadControl a s = .ok (r, t))
    (ha : a.destTid.isGlobal = false ∨
      systemBase ≤ a.destTid.getThreadno ∧ a.destTid.getThreadno < userBase) :
    t.tcbIdent = s.tcbIdent := by
  have hwp : wp (fun _ => True) (sysThreadControl a) (fun _ t => t.tcbIdent = s.tcbIdent) s := by
    have hfail : ∀ err, wp (fun _ => True) (failWith err) (fun _ t => t.tcbIdent = s.tcbIdent) s :=
      fun err => wp_iff_ok.mpr fun r t h =>
        KState.tcbIdent_eq (keepsIdent_failWith s r t h)
    simp only [sysThreadControl, wp_bind, wp_getCurrentSpace, wp_isPrivilegedSpace, wp_ite]
    split
    · exact hfail _
    · rcases ha with ha | ha
      · simpa [ha] using hfail _
      · have h1 : ¬a.destTid.getThreadno < systemBase := by omega
        simp [h1, ha.2, hfail]
  exact wp_iff_ok.mp hwp r t h

theorem getTcb_eq_iff {tid : ThreadId} {i : Fin (2 ^ validThreadnoBits)} :
    getTcb tid = .t i ↔ tid.getThreadno % 2 ^ validThreadnoBits = i.val := by
  simp [getTcb, Fin.ext_iff]

/-- `sigma0`, which is privileged, at user level in a system without threads below it. -/
theorem exists_sigma0_current :
    ∃ s, Reachable (fun _ _ => True) s ∧ s.Privileged ∧
      (∀ i : Fin (2 ^ validThreadnoBits), i.val < userBase → (s.tcb (.t i)).space = none) ∧
      (s.tcb (getTcb sigma0Tid)).myselfGlobal = sigma0Tid ∧
      (s.tcb (getTcb sigma0Tid)).space.isSome := by
  obtain ⟨s, hs, hP⟩ := exists_reachable (fun _ _ => True) [.idle, .resume]
    (fun s => decide (s.Privileged ∧
      (∀ i : Fin userBase, (s.tcb (.t (i.castLE (by decide)))).space = none) ∧
      (s.tcb (getTcb sigma0Tid)).myselfGlobal = sigma0Tid ∧
      (s.tcb (getTcb sigma0Tid)).space.isSome)) (by decide +kernel)
  obtain ⟨hpriv, hlow, hid, hsp⟩ := of_decide_eq_true hP
  exact ⟨s, hs, hpriv, fun i hi => hlow ⟨i, hi⟩, hid, hsp⟩

/-- A user thread number that selects a slot below the user threads creates a thread there. -/
theorem exists_low_slot_created {dest : ThreadId} (hglobal : dest.isGlobal)
    (hno : userBase ≤ dest.getThreadno)
    (hlow : dest.getThreadno % 2 ^ validThreadnoBits < userBase) :
    ∃ s a t, Reachable (fun _ _ => True) s ∧ a.destTid = dest ∧
      sysThreadControl a s = .ok (true, t) ∧
      t.tcbIdent (getTcb dest) ≠ s.tcbIdent (getTcb dest) := by
  obtain ⟨s, hs, hpriv, hnone, hid, hsp⟩ := exists_sigma0_current
  obtain ⟨sp, hsp⟩ := Option.isSome_iff_exists.mp hsp
  have hnone : (s.tcb (getTcb dest)).space = none := hnone _ hlow
  have hne : getTcb sigma0Tid ≠ getTcb dest := by
    have : sigma0Tid.getThreadno % 2 ^ validThreadnoBits = userBase := by decide
    simp only [getTcb, Ne, TcbPtr.t.injEq, Fin.ext_iff]
    omega
  have hsigma0 : sigma0Tid.isNilthread = false := by decide
  have hroot : rootServerTid.isNilthread = false := by decide
  obtain ⟨t, ht, htsp⟩ := sysThreadControl_create (s := s)
    (a := ⟨dest, sigma0Tid, rootServerTid, .nilthread, noLocation⟩) hpriv hglobal hno
    (by simp [hnone, Tcb.isExisting]) hsigma0 (fun e => hne (congrArg getTcb e.symm)) hne hid hsp
    hroot rfl
  refine ⟨s, _, t, hs, rfl, ht, fun h => ?_⟩
  have h : (t.tcb (getTcb dest)).space = (s.tcb (getTcb dest)).space := congrArg TcbIdent.space h
  rw [hnone, htsp] at h
  cases h

/-- Thread control stays above the system threads for exactly those ids whose thread number, if it
passes the range checks, does not wrap into their slots. -/
theorem keepsLowSlots_iff (dest : ThreadId) :
    KeepsLowSlots dest ↔ (dest.isGlobal → userBase ≤ dest.getThreadno →
      userBase ≤ dest.getThreadno % 2 ^ validThreadnoBits) := by
  constructor
  · intro h hglobal hno
    by_contra hlow
    obtain ⟨s, a, t, hs, ha, ht, hne⟩ := exists_low_slot_created hglobal hno (Nat.lt_of_not_le hlow)
    rcases h s hs a true t ha ht ⟨_, _⟩ (Nat.lt_of_not_le hlow) with h | h
    · exact hne h
    · simp only [userBase] at hno
      omega
  · rintro h s - a r t rfl hs i hi
    by_cases hrej : a.destTid.isGlobal = false ∨
      systemBase ≤ a.destTid.getThreadno ∧ a.destTid.getThreadno < userBase
    · exact .inl (congrFun (sysThreadControl_rejected hs hrej) _)
    · by_cases hslot : getTcb a.destTid = .t i
      · right
        refine ⟨?_, hslot⟩
        rw [getTcb_eq_iff] at hslot
        have := h (by simp_all)
        omega
      · exact .inl (congrFun (keepsOthers_sysThreadControl s r t hs) ⟨.t i, Ne.symm hslot⟩)

/-- Thread number `2 ^ 27 + 7` passes the range checks and selects the TCB of the kernel thread. -/
theorem not_keepsLowSlots_wrapped :
    ¬KeepsLowSlots (.threadid (2 ^ validThreadnoBits + systemBase) 1) := by
  intro h
  have hlow : (ThreadId.threadid (2 ^ validThreadnoBits + systemBase) 1).getThreadno %
      2 ^ validThreadnoBits < userBase := by decide
  obtain ⟨s, a, t, hs, ha, ht, hne⟩ := exists_low_slot_created (by decide) (by decide) hlow
  rcases h s hs a true t ha ht ⟨_, _⟩ hlow with h | h
  · exact hne h
  · exact absurd h.1 (by decide)

end L4Thread
