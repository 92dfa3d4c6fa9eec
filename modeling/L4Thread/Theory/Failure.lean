import L4Thread.Theory.Wp

/-!
# Failing thread control calls

`SYS_THREAD_CONTROL` is meant to succeed or fail completely. The one exit that breaks this is the
check of the space specifier of a modification, which comes after the UTCB location was stored.
-/

namespace L4Thread

open TrapM Kernel

/-- `t` is `s` up to the error code in the UTCB of the current thread. -/
def OnlyErrorCode (s t : KState) : Prop :=
  ∃ u err, s.current.utcb = some u ∧
    t = { s with utcb := Function.update s.utcb u { s.utcb u with errorCode := err } }

/-- If the call returns 0, it changes nothing but the caller's error code. -/
def FailureAtomic (a : ThreadControlArgs) (s : KState) : Prop :=
  ∀ t, sysThreadControl a s = .ok (false, t) → OnlyErrorCode s t

/-- The call gives an inactive thread a new UTCB location that is valid in its space, and an invalid
space specifier. -/
structure StoresLocation (a : ThreadControlArgs) (s : KState) : Prop where
  privileged : s.Privileged
  caller : s.current.isActivated
  isGlobal : a.destTid.isGlobal
  threadno : userBase ≤ a.destTid.getThreadno
  modify : a.spaceTid.isNilthread = false
  inactive : (s.tcb (getTcb a.destTid)).isActivated = false
  location : a.utcbLocation ≠ noLocation
  valid : ∃ sp, (s.tcb (getTcb a.destTid)).space = some sp ∧
    (s.space sp).checkUtcbLocation a.utcbLocation
  changed : (s.tcb (getTcb a.destTid)).myselfLocal ≠ ⟨a.utcbLocation⟩
  spaceTid : (s.tcb (getTcb a.spaceTid)).myselfGlobal ≠ a.spaceTid

variable {a : ThreadControlArgs} {s : KState} {dest : TcbPtr}

/-! ## The parts of the call -/

/-- A computation returns false only in a state that differs from `s` in the error code. -/
abbrev FailsAtomic (s : KState) (x : Kernel Bool) : KState → Prop :=
  wp (fun _ => True) x fun r t => r = false → OnlyErrorCode s t

theorem failsAtomic_failWith (err : Word) : FailsAtomic s (failWith err) s := by
  rw [FailsAtomic, wp_failWith]
  exact ⟨fun _ => trivial, fun u hu _ => ⟨u, err, hu, rfl⟩⟩

/-- A computation that cannot return false. -/
theorem failsAtomic_of_returns {x : Kernel Bool} {t : KState} (h : Returns (· = true) x) :
    FailsAtomic s x t :=
  h.wp fun r _ hr hf => by simp [hr] at hf

theorem failsAtomic_threadDelete : FailsAtomic s (threadDelete dest) s := by
  rw [FailsAtomic, threadDelete, wp_bind, wp_getCurrentTcb, wp_ite]
  split
  · exact failsAtomic_failWith _
  · refine failsAtomic_of_returns ?_
    grind

/-- The checks of a creation only read. -/
theorem wp_createCheck {Q : Option Word → KState → Prop} (h : ∀ o, Q o s) :
    wp (fun _ => True) (createCheck a) Q s := by
  simp only [createCheck, wp_bind, wp_readTcb, wp_ite, wp_pure, wp_readSpace,
    wp_checkUtcbLocation]
  grind

theorem failsAtomic_threadCreate : FailsAtomic s (threadCreate dest a) s := by
  rw [FailsAtomic, threadCreate, wp_bind]
  refine wp_createCheck fun o => ?_
  cases o with
  | some err => exact failsAtomic_failWith err
  | none =>
    refine failsAtomic_of_returns ?_
    grind

/-- A modification rejects the pager argument only for an inactive thread, and before it writes. -/
theorem wp_modifyPager {Q : Option Word → KState → Prop} (hnone : ∀ t, Q none t)
    (hsome : (s.tcb dest).isActivated = false →
      (∀ sp, (s.tcb dest).space = some sp → (s.space sp).checkUtcbLocation a.utcbLocation = false) →
      Q (some eutcbArea) s) :
    wp (fun _ => True) (modifyPager dest a) Q s := by
  have hrest : ∀ x : Kernel Unit, ∀ t, wp (fun _ => True) (do x; pure none) Q t := fun x t =>
    Returns.wp (P := (· = none)) (by grind) fun o t ho => ho ▸ hnone t
  rw [modifyPager, wp_ite]
  split
  · exact hnone s
  · rw [wp_bind, wp_readTcb, wp_ite]
    split
    · exact hrest _ s
    · rw [wp_bind, wp_checkUtcbLocation]
      refine ⟨fun _ => trivial, fun sp hsp => ?_⟩
      split
      · exact Returns.wp (P := (· = none)) (by grind) fun o t ho => ho ▸ hnone t
      · exact hsome (by simp_all) (by simp_all)

/-- A modification whose location argument, if it was stored, is valid for `dest`. -/
theorem failsAtomic_modifySettings {t : KState}
    (h : (t.tcb dest).isActivated = false →
      (∀ sp, (t.tcb dest).space = some sp →
        (t.space sp).checkUtcbLocation a.utcbLocation = false) → t = s) :
    FailsAtomic s (modifySettings dest a) t := by
  rw [FailsAtomic, modifySettings, wp_bind]
  refine wp_modifyPager (fun t => ?_) fun hact hcheck => ?_
  · exact failsAtomic_of_returns (by grind)
  · obtain rfl := h hact hcheck
    exact failsAtomic_failWith _

theorem wp_migrateToSpace_activated {o : Option SpacePtr} :
    wp (fun _ => True) (migrateToSpace dest o) (fun _ t => (t.tcb dest).isActivated) s := by
  unfold migrateToSpace
  repeat' first | refine wp_bind_of_forall fun _ _ => ?_ | split
  all_goals simp [Tcb.isActivated]

/-- A modification behind the check of its space argument. -/
theorem failsAtomic_modifyThread {o : Option SpacePtr} {t : KState}
    (h : (t.tcb dest).isActivated = false →
      (∀ sp, (t.tcb dest).space = some sp →
        (t.space sp).checkUtcbLocation a.utcbLocation = false) → t = s) :
    FailsAtomic s (modifyThread dest a o) t := by
  rw [FailsAtomic, modifyThread, wp_bind, wp_readTcb, wp_ite]
  split
  · rw [wp_bind]
    exact wp_mono wp_migrateToSpace_activated fun _ t ht =>
      failsAtomic_modifySettings (by simp [ht])
  · exact failsAtomic_modifySettings h

theorem KState.withLocation_eq_self {loc : Word} (h : (s.tcb dest).myselfLocal = ⟨loc⟩) :
    s.withLocation dest loc = s := by
  simp [KState.withLocation, ← h]

theorem failsAtomic_threadModify
    (h : ∀ sp, s.current.isActivated → (s.tcb dest).isActivated = false →
      a.utcbLocation ≠ noLocation → (s.tcb dest).space = some sp →
      (s.space sp).checkUtcbLocation a.utcbLocation →
      (s.tcb (getTcb a.spaceTid)).myselfGlobal ≠ a.spaceTid →
      (s.tcb dest).myselfLocal = ⟨a.utcbLocation⟩) :
    FailsAtomic s (threadModify dest a) s := by
  rw [FailsAtomic, threadModify, wp_bind, wp_modifyUtcbLocation]
  split
  · simp only [if_true, wp_bind, wp_readTcb]
    rw [wp_ite]
    split
    · exact failsAtomic_failWith _
    · exact failsAtomic_modifyThread fun _ _ => rfl
  · split
    · exact failsAtomic_failWith _
    · rename_i hloc hact
      refine ⟨fun _ => trivial, fun sp hsp => ?_⟩
      split
      · rename_i hvalid
        -- the location was stored before the space specifier is checked
        simp only [if_true, wp_bind, wp_readTcb]
        rw [wp_ite, KState.withLocation_myselfGlobal]
        split
        · rename_i hspace
          by_cases hcur : s.current.isActivated
          · rw [KState.withLocation_eq_self (h sp hcur (by simpa using hact) hloc hsp hvalid hspace)]
            exact failsAtomic_failWith _
          · rw [wp_failWith]
            refine ⟨fun _ => trivial, fun u hu => ?_⟩
            have hu : s.current.utcb = some u := (KState.withLocation_utcb _).symm.trans hu
            simp [Tcb.isActivated, hu] at hcur
        · refine failsAtomic_modifyThread fun _ hinv => ?_
          have hinv := hinv sp ((KState.withLocation_space _).trans hsp)
          rw [show (s.withLocation dest a.utcbLocation).space = s.space from rfl, hvalid] at hinv
          cases hinv
      · exact failsAtomic_failWith _

/-- A call with the arguments of `StoresLocation` fails and leaves the location behind. -/
theorem StoresLocation.not_failureAtomic (h : StoresLocation a s) : ¬FailureAtomic a s := by
  obtain ⟨sp, hsp, hvalid⟩ := h.valid
  obtain ⟨u, hu⟩ := Option.isSome_iff_exists.mp h.caller
  have h1 : ¬a.destTid.getThreadno < userBase := Nat.not_lt.mpr h.threadno
  have h2 : ¬a.destTid.getThreadno < systemBase := by
    have := h.threadno
    simp only [userBase] at this
    omega
  have hex : (s.tcb (getTcb a.destTid)).isExisting = true := by simp [Tcb.isExisting, hsp]
  have hwp : wp (fun _ => False) (sysThreadControl a) (fun r t => r = false ∧
      (t.tcb (getTcb a.destTid)).myselfLocal = ⟨a.utcbLocation⟩) s := by
    have hcur : (s.withLocation (getTcb a.destTid) a.utcbLocation).current.utcb = some u :=
      (KState.withLocation_utcb _).trans hu
    simp [wp_sysThreadControl, threadModify, wp_modifyUtcbLocation, wp_failWith, h.privileged,
      h.isGlobal, h1, h2, hex, h.modify, h.location, h.inactive, hsp, hvalid, h.spaceTid, hcur,
      KState.withLocation_myselfGlobal]
    simp [KState.withLocation]
  obtain ⟨r, t, ht, rfl, hloc⟩ := wp_iff_exists.mp hwp
  intro hat
  obtain ⟨v, err, -, rfl⟩ := hat t ht
  exact h.changed hloc

/-- Only an unusable interrupt id is rejected. -/
theorem wp_threadControlInterrupt_false {irqTid handlerTid : ThreadId} :
    wp (fun _ => True) (threadControlInterrupt irqTid handlerTid)
      (fun r t => r = false → t = s) s := by
  have htrue : ∀ x : Kernel Bool, Returns (· = true) x →
      wp (fun _ => True) x (fun r t => r = false → t = s) s :=
    fun x hx => hx.wp fun r t hr hf => by simp [hr] at hf
  unfold threadControlInterrupt
  dsimp only
  rw [wp_ite]
  split
  · simp
  · exact htrue _ (by grind)

/-- A call fails without an effect exactly if it does not store a UTCB location on the way. -/
theorem failureAtomic_iff (a : ThreadControlArgs) (s : KState) :
    FailureAtomic a s ↔ ¬StoresLocation a s := by
  refine ⟨fun h hs => hs.not_failureAtomic h, fun h => ?_⟩
  suffices FailsAtomic s (sysThreadControl a) s from
    fun t ht => wp_iff_ok.mp this false t ht rfl
  rw [FailsAtomic, wp_sysThreadControl]
  split
  · exact failsAtomic_failWith _
  · split
    · exact failsAtomic_failWith _
    · split
      · refine wp_mono wp_threadControlInterrupt_false fun r t ht => ?_
        cases r with
        | true => simp
        | false =>
          obtain rfl := ht rfl
          exact failsAtomic_failWith _
      · split
        · exact failsAtomic_failWith _
        · split
          · exact failsAtomic_threadDelete
          · split
            · refine failsAtomic_threadModify fun sp hcur hact hloc hsp hvalid hspace => ?_
              by_contra hne
              exact h ⟨by simp_all, hcur, by simp_all, by simp_all, by simp_all, hact, hloc,
                ⟨sp, hsp, hvalid⟩, hne, hspace⟩
            · exact failsAtomic_threadCreate

/-- An inactive thread in the space of `sigma0` is given another location and a space specifier
that names no thread. -/
theorem exists_not_failureAtomic :
    ∃ s a, Reachable (fun _ _ => True) s ∧ ¬FailureAtomic a s := by
  obtain ⟨s, hs, hP⟩ := exists_reachable (fun _ _ => True)
    [.idle, .resume,
      .threadControl ⟨sampleTid 0, sigma0Tid, rootServerTid, .nilthread, rootUtcbStart + 0x400⟩]
    (fun s => decide (s.Privileged ∧ s.current.isActivated ∧
      (s.tcb (getTcb (sampleTid 0))).isActivated = false ∧
      ((s.tcb (getTcb (sampleTid 0))).space.any fun sp =>
        (s.space sp).checkUtcbLocation (rootUtcbStart + 0x800)) ∧
      (s.tcb (getTcb (sampleTid 0))).myselfLocal ≠ ⟨rootUtcbStart + 0x800⟩ ∧
      (s.tcb (getTcb (sampleTid 1))).myselfGlobal ≠ sampleTid 1)) (by decide +kernel)
  obtain ⟨hpriv, hcur, hact, hvalid, hne, hspace⟩ := of_decide_eq_true hP
  refine ⟨s, ⟨sampleTid 0, sampleTid 1, .nilthread, .nilthread, rootUtcbStart + 0x800⟩, hs, ?_⟩
  exact StoresLocation.not_failureAtomic ⟨hpriv, hcur, by decide, by decide, by decide, hact,
    by decide, by simpa [Option.any_eq_true] using hvalid, hne, hspace⟩

end L4Thread
