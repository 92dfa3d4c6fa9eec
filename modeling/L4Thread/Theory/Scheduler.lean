import L4Thread.Theory.Boot

/-!
# Schedulers exist

A thread names its scheduler by id. Thread control stores any id as a scheduler, deletes threads and
changes ids without looking for the threads that name them. In the runs that avoid this, every
existing thread has an existing scheduler.
-/

namespace L4Thread

open TrapM Kernel

variable {s t : KState} {e : Event} {a : ThreadControlArgs} {p q : TcbPtr} {tid : ThreadId}

/-- `tid` is the id of an existing thread. -/
def KState.Names (s : KState) (tid : ThreadId) : Prop :=
  (s.tcb (getTcb tid)).isExisting ∧ (s.tcb (getTcb tid)).myselfGlobal = tid

/-- Every existing thread, the idle thread aside, has a scheduler. -/
def KState.SchedulersExist (s : KState) : Prop :=
  ∀ p, p ≠ .idle → (s.tcb p).isExisting → s.Names (s.tcb p).scheduler

/-- `tid` can be the scheduler of the thread that `dest` names after the call. -/
def KState.CanSchedule (s : KState) (dest tid : ThreadId) : Prop :=
  tid = dest ∨ getTcb tid ≠ getTcb dest ∧ s.Names tid

/-- The thread in `p` is the scheduler of no other existing thread. -/
def KState.SchedulesNone (s : KState) (p : TcbPtr) : Prop :=
  ∀ q, q ≠ .idle → q ≠ p → (s.tcb q).isExisting → (s.tcb q).scheduler ≠ (s.tcb p).myselfGlobal

/-- The calls that keep schedulers in existence: a scheduler argument names an existing thread or
the destination, and a thread that is deleted or gets another id is nobody's scheduler. -/
structure SchedulerSafe (s : KState) (a : ThreadControlArgs) : Prop where
  attach : s.Attaches a → (s.tcb (getTcb a.destTid)).isExisting = false
  delete : s.Deletes a → s.SchedulesNone (getTcb a.destTid)
  create : s.Creates a → s.CanSchedule a.destTid a.schedulerTid
  modify : s.Modifies a → a.schedulerTid.isNilthread = false →
    s.CanSchedule a.destTid a.schedulerTid
  rename : s.Modifies a → (s.tcb (getTcb a.destTid)).myselfGlobal ≠ a.destTid →
    s.SchedulesNone (getTcb a.destTid) ∧ (a.schedulerTid.isNilthread →
      (s.tcb (getTcb a.destTid)).scheduler ≠ (s.tcb (getTcb a.destTid)).myselfGlobal)

/-- The steps in question. -/
def SchedulerSteps (s : KState) : Event → Prop
  | .threadControl a => SchedulerSafe s a
  | _ => True

/-- The boot with a root server, which is the scheduler of all servers. -/
def KState.BootedWithRoot (s : KState) : Prop :=
  ∃ cfg : BootConfig, cfg.rootServer ∧ boot cfg (KState.zero cfg) = .ok ((), s)

/-! ## Preservation -/

theorem KState.Names.congr (h : s.Names tid)
    (ht : t.tcbIdent (getTcb tid) = s.tcbIdent (getTcb tid)) : t.Names tid := by
  refine ⟨?_, ?_⟩
  · rw [KState.isExisting_eq ht]
    exact h.1
  · exact (congrArg TcbIdent.myselfGlobal ht).trans h.2

theorem schedulersExist_boot (h : s.BootedWithRoot) : s.SchedulersExist := by
  obtain ⟨cfg, hcfg, h⟩ := h
  obtain ⟨tids, htab, hroot, -⟩ := rootTable_boot h
  intro p hp hex
  obtain ⟨tid, htid, rfl⟩ := htab.only hp hex
  obtain ⟨u, sp, hid⟩ := htab.ident htid
  obtain ⟨u', sp', hid'⟩ := htab.ident (hroot hcfg)
  have hsched : (s.tcb (getTcb tid)).scheduler = rootServerTid := congrArg TcbIdent.scheduler hid
  rw [hsched]
  exact ⟨congrArg (·.space.isSome) hid', congrArg TcbIdent.myselfGlobal hid'⟩

/-- `dest` is the scheduler of no other existing thread, by slot. -/
theorem KState.SchedulersExist.not_scheduler (h : s.SchedulersExist) {dest : TcbPtr}
    (hd : (s.tcb dest).isExisting = false ∨ s.SchedulesNone dest) (hq : q ≠ .idle) (hqd : q ≠ dest)
    (hex : (s.tcb q).isExisting) : getTcb (s.tcb q).scheduler ≠ dest := by
  rintro rfl
  have hn := h q hq hex
  rcases hd with hd | hd
  · rw [hn.1] at hd
    cases hd
  · exact hd q hq hqd hex hn.2.symm

/-- Schedulers exist after a change of `dest`, if `dest` keeps its id or was nobody's scheduler, and
has a scheduler itself. -/
theorem KState.SchedulersExist.update (h : s.SchedulersExist) {dest : TcbPtr}
    (hothers : ∀ q ≠ dest, t.tcbIdent q = s.tcbIdent q)
    (hkeep : (s.tcb dest).isExisting = false ∨ s.SchedulesNone dest ∨
      (t.tcb dest).isExisting = true ∧ (t.tcb dest).myselfGlobal = (s.tcb dest).myselfGlobal)
    (hself : (t.tcb dest).isExisting → t.Names (t.tcb dest).scheduler) : t.SchedulersExist := by
  intro q hq hex
  rcases eq_or_ne q dest with rfl | hqd
  · exact hself hex
  · have hex' : (s.tcb q).isExisting := by rwa [← KState.isExisting_eq (hothers q hqd)]
    have hsched : (t.tcb q).scheduler = (s.tcb q).scheduler :=
      congrArg TcbIdent.scheduler (hothers q hqd)
    have hn := h q hq hex'
    rw [hsched]
    by_cases hd : getTcb (s.tcb q).scheduler = dest
    · rcases or_assoc.mpr hkeep with hnone | ⟨hex2, hid⟩
      · exact absurd hd (h.not_scheduler hnone hq hqd hex')
      · refine ⟨by rwa [hd], ?_⟩
        rw [hd, hid, ← hd]
        exact hn.2
    · exact hn.congr (hothers _ hd)

/-- A change of `dest` that keeps its id and its existence keeps all names. -/
theorem KState.Names.update (h : s.Names tid) {dest : TcbPtr}
    (hothers : ∀ q ≠ dest, t.tcbIdent q = s.tcbIdent q)
    (hex : (t.tcb dest).isExisting = (s.tcb dest).isExisting)
    (hid : (t.tcb dest).myselfGlobal = (s.tcb dest).myselfGlobal) : t.Names tid := by
  by_cases hd : getTcb tid = dest
  · subst hd
    exact ⟨hex.trans h.1, hid.trans h.2⟩
  · exact h.congr (hothers _ hd)

theorem KState.CanSchedule.names (h : s.CanSchedule a.destTid tid)
    (hothers : ∀ q ≠ getTcb a.destTid, t.tcbIdent q = s.tcbIdent q)
    (hid : (t.tcb (getTcb a.destTid)).myselfGlobal = a.destTid)
    (hex : (t.tcb (getTcb a.destTid)).isExisting) : t.Names tid := by
  rcases h with rfl | ⟨hne, hn⟩
  · exact ⟨hex, hid⟩
  · exact hn.congr (hothers _ hne)

/-- A call in question keeps schedulers in existence. -/
theorem KState.SchedulersExist.threadControl (h : s.SchedulersExist) (ha : SchedulerSafe s a)
    {r : Bool} (hs : sysThreadControl a s = .ok (r, t)) : t.SchedulersExist := by
  have hothers : ∀ q ≠ getTcb a.destTid, t.tcbIdent q = s.tcbIdent q := fun q hq =>
    congrFun (keepsOthers_sysThreadControl s r t hs) ⟨q, hq⟩
  have heff := sysThreadControl_effect hs
  generalize hc : t.tcbIdent (getTcb a.destTid) = c at heff
  have hex : (t.tcb (getTcb a.destTid)).isExisting = c.space.isSome := by rw [← hc]; rfl
  have hid : (t.tcb (getTcb a.destTid)).myselfGlobal = c.myselfGlobal := by rw [← hc]; rfl
  have hsched : (t.tcb (getTcb a.destTid)).scheduler = c.scheduler := by rw [← hc]; rfl
  have hsame : c.space = (s.tcb (getTcb a.destTid)).space →
      c.myselfGlobal = (s.tcb (getTcb a.destTid)).myselfGlobal →
      c.scheduler = (s.tcb (getTcb a.destTid)).scheduler → t.SchedulersExist := by
    intro h1 h2 h3
    have hex' : (t.tcb (getTcb a.destTid)).isExisting = (s.tcb (getTcb a.destTid)).isExisting := by
      rw [hex, h1, Tcb.isExisting]
    refine fun q hq hexq => ?_
    have hexs : (s.tcb q).isExisting := by
      rcases eq_or_ne q (getTcb a.destTid) with rfl | hqd
      · rwa [← hex']
      · rwa [← KState.isExisting_eq (hothers q hqd)]
    have hschedq : (t.tcb q).scheduler = (s.tcb q).scheduler := by
      rcases eq_or_ne q (getTcb a.destTid) with rfl | hqd
      · rw [hsched, h3]
      · exact congrArg TcbIdent.scheduler (hothers q hqd)
    rw [hschedq]
    exact (h q hq hexs).update hothers hex' (hid.trans h2)
  cases heff with
  | rejected => exact hsame rfl rfl rfl
  | located hinactive => exact hsame rfl rfl rfl
  | irqCreated hatt hinactive =>
    exact h.update hothers (.inl (ha.attach hatt)) fun hex' => by simp [hex] at hex'
  | attached hatt hactive =>
    have hnone := ha.attach hatt
    exact h.update hothers (.inl hnone) fun hex' => by
      rw [hex] at hex'
      simp_all [Tcb.isExisting, KState.tcbIdent, Tcb.ident]
  | deleted hdel =>
    exact h.update hothers (.inr (.inl (ha.delete hdel))) fun hex' => by simp [hex] at hex'
  | created hcre utcb sp hutcb hsp =>
    refine h.update hothers (.inl hcre.2.2.1) fun hex' => ?_
    rw [hsched]
    exact (ha.create hcre).names hothers hid hex'
  | modified hmod utcb hutcb hspace hmove =>
    have hex' : (t.tcb (getTcb a.destTid)).isExisting = true := by rw [hex]; exact hspace
    refine h.update hothers ?_ fun _ => ?_
    · by_cases hren : (s.tcb (getTcb a.destTid)).myselfGlobal = a.destTid
      · exact .inr (.inr ⟨hex', hid.trans hren.symm⟩)
      · exact .inr (.inl (ha.rename hmod hren).1)
    · rw [hsched]
      cases hnil : a.schedulerTid.isNilthread with
      | false =>
        simp only [TcbIdent.modified, hnil]
        exact (ha.modify hmod hnil).names hothers hid hex'
      | true =>
        simp only [TcbIdent.modified, hnil, if_true]
        have hn := h (getTcb a.destTid) (by simp [getTcb]) hmod.2.2.1
        by_cases hren : (s.tcb (getTcb a.destTid)).myselfGlobal = a.destTid
        · exact hn.update hothers (hex'.trans hmod.2.2.1.symm) (hid.trans hren.symm)
        · by_cases hd : getTcb (s.tcb (getTcb a.destTid)).scheduler = getTcb a.destTid
          · have h2 := hn.2
            rw [hd] at h2
            exact absurd h2.symm ((ha.rename hmod hren).2 hnil)
          · exact hn.congr (hothers _ hd)

/-- In the runs in question, from a boot with a root server, schedulers exist. -/
theorem schedulersExist (h : Run.Reach KState.BootedWithRoot KState.Step SchedulerSteps s) :
    s.SchedulersExist := by
  refine h.invariant (fun s hs => schedulersExist_boot hs) fun s e t hI hok hstep => ?_
  rcases hstep.tcbIdent with ⟨a, r, rfl, hr⟩ | hsame
  · exact hI.threadControl hok hr
  · intro p hp hex
    rw [KState.isExisting_eq (congrFun hsame p)] at hex
    have hsched : (t.tcb p).scheduler = (s.tcb p).scheduler :=
      congrArg TcbIdent.scheduler (congrFun hsame p)
    rw [hsched]
    exact (hI p hp hex).congr (congrFun hsame _)

theorem sample_bootedWithRoot : KState.sample.BootedWithRoot := ⟨.sample, rfl, boot_sample⟩

instance : Decidable (s.Names tid) := inferInstanceAs (Decidable (_ ∧ _))

/-- Creations with an existing scheduler are among the steps in question. -/
def CreationSteps (s : KState) : Event → Prop
  | .threadControl a => s.Creates a ∧ s.Names a.schedulerTid
  | _ => True

instance (e : Event) : Decidable (CreationSteps s e) :=
  KState.decidableThreadControl (fun a => s.Creates a ∧ s.Names a.schedulerTid) e

theorem CreationSteps.schedulerSteps (h : CreationSteps s e) : SchedulerSteps s e := by
  cases e with
  | threadControl a =>
    obtain ⟨hcre, hn⟩ := h
    refine ⟨fun _ => hcre.2.2.1, fun h => absurd h hcre.not_deletes,
      fun _ => .inr ⟨fun he => ?_, hn⟩, fun h => absurd h hcre.not_modifies,
      fun h => absurd h hcre.not_modifies⟩
    have hex := hn.1
    rw [he, hcre.2.2.1] at hex
    cases hex
  | _ => trivial

/-- `sigma0` creates an inactive thread with the root server as its scheduler. -/
theorem exists_schedulersExist :
    ∃ s, Run.Reach KState.BootedWithRoot KState.Step SchedulerSteps s ∧
      (s.tcb (getTcb (sampleTid 0))).isExisting ∧ s.SchedulersExist := by
  obtain ⟨s, hs, hP⟩ := exists_reach sample_bootedWithRoot CreationSteps
    [.idle, .resume,
      .threadControl ⟨sampleTid 0, sigma0Tid, rootServerTid, .nilthread, rootUtcbStart + 0x400⟩]
    (fun s => (s.tcb (getTcb (sampleTid 0))).isExisting) (by decide +kernel)
  have hs := hs.mono fun _ _ => CreationSteps.schedulerSteps
  exact ⟨s, hs, hP, schedulersExist hs⟩

/-- `sigma0` creates a thread with a scheduler that does not exist. -/
theorem exists_not_schedulersExist :
    ∃ s, Run.Reach KState.BootedWithRoot KState.Step (fun _ _ => True) s ∧ ¬s.SchedulersExist := by
  obtain ⟨s, hs, hP⟩ := exists_reach sample_bootedWithRoot (fun _ _ => True)
    [.idle, .resume,
      .threadControl ⟨sampleTid 0, sigma0Tid, sampleTid 1, .nilthread, rootUtcbStart + 0x400⟩]
    (fun s => decide ((s.tcb (getTcb (sampleTid 0))).isExisting ∧
      ¬s.Names (s.tcb (getTcb (sampleTid 0))).scheduler)) (by decide +kernel)
  obtain ⟨hex, hn⟩ := of_decide_eq_true hP
  exact ⟨s, hs, fun h => hn (h _ (by decide) hex)⟩

end L4Thread
