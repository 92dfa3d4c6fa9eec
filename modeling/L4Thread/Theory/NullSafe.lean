import L4Thread.Theory.Effect
import L4Thread.Theory.Failure
import L4Thread.Theory.Unwind

/-!
# Absent UTCBs and spaces

An inactive thread has no UTCB, and the kernel and interrupt threads have no space. The functions
that `SYS_THREAD_CONTROL` calls take the one or the other for granted: `set_global_id` and
`migrate_to_space` need the UTCB of the destination, `unwind` that of the partner, and the creation
and the migration of a thread need the space of the thread that is named as the space specifier.
-/

namespace L4Thread

open TrapM Kernel

variable {s t u : KState} {p q dest : TcbPtr} {a : ThreadControlArgs} {tag : MsgTag} {α : Type}

/-- The trap is no access through a null UTCB or space pointer. -/
def NoNull (e : Trap) : Prop := e ≠ .nullUtcb ∧ e ≠ .nullSpace

/-- No run of the call reads or writes through an absent UTCB or an absent space. -/
def NoNullAccess (s : KState) (a : ThreadControlArgs) : Prop :=
  ∀ e, sysThreadControl a s = .error e → NoNull e

/-! ## When the call is safe -/

/-- The threads that a round of `unwind` breaks the IPC off for have UTCBs. -/
def KState.FindsActivated (s : KState) (p : TcbPtr) (st : ThreadState) (partner : ThreadId) :
    Prop :=
  ∀ q, s.FindsReceiver p st partner q ∨ s.FindsSender st partner q → (s.tcb q).utcb ≠ none

/-- So have those of all rounds; there is another one for the IPC around a nested one. -/
structure KState.UnwindsSafely (s : KState) (p : TcbPtr) : Prop where
  inner : s.FindsActivated p (s.tcb p).state (s.tcb p).partner
  outer : (s.tcb p).savedPartner.isNilthread = false ∨ (s.tcb p).state = .lockedRunningIpcDone →
    s.FindsActivated p (s.tcb p).savedState (s.tcb p).savedPartner

/-- The space specifier of the call names a thread. -/
def KState.NamesSpace (s : KState) (a : ThreadControlArgs) : Prop :=
  (s.tcb (getTcb a.spaceTid)).myselfGlobal = a.spaceTid

/-- The pointers the call needs are there. -/
structure KState.NullSafe (s : KState) (a : ThreadControlArgs) : Prop where
  caller : s.current.utcb ≠ none
  /-- A deleted thread inside an IPC has an activated partner. -/
  delete : s.Deletes a → (s.tcb (getTcb a.destTid)).isActivated →
    (s.tcb (getTcb a.destTid)).state.isSending ∨ (s.tcb (getTcb a.destTid)).state.isReceiving →
    s.UnwindsSafely (getTcb a.destTid)
  /-- A thread that changes its space is activated and goes to a space. -/
  migrate : (s.tcb (getTcb a.destTid)).isExisting → a.spaceTid.isNilthread = false →
    s.NamesSpace a → (s.tcb (getTcb a.destTid)).space ≠ (s.tcb (getTcb a.spaceTid)).space →
    (s.tcb (getTcb a.spaceTid)).space ≠ none ∧ (s.tcb (getTcb a.destTid)).utcb ≠ none ∧
      s.UnwindsSafely (getTcb a.destTid)
  /-- A thread that gets another id is activated, or is activated by the call. -/
  ident : (s.tcb (getTcb a.destTid)).isExisting → a.spaceTid.isNilthread = false →
    s.NamesSpace a → (s.tcb (getTcb a.destTid)).utcb = none → a.pagerTid.isNilthread = true →
    (s.tcb (getTcb a.destTid)).myselfGlobal = a.destTid
  /-- A new thread in an existing space names a thread that has one. -/
  create : (s.tcb (getTcb a.destTid)).isExisting = false → a.destTid ≠ a.spaceTid →
    s.NamesSpace a → (s.tcb (getTcb a.spaceTid)).space ≠ none

/-! ## Computations without such accesses -/

abbrev Harmless (x : Kernel α) : Prop := Throws NoNull x

@[grind ←] theorem harmless_ofLinks {o : Option α} : Harmless (ofLinks o) := by
  cases o with
  | none => exact .trap ⟨nofun, nofun⟩
  | some a => exact .pure a

@[grind ←] theorem harmless_hang : Harmless (trap .hang : Kernel α) := .trap ⟨nofun, nofun⟩

@[grind ←] theorem harmless_modTcb {f : Tcb → Tcb} : Harmless (modTcb p f) := .modify _

@[grind ←] theorem harmless_readTcb : Harmless (readTcb p) := .gets _

@[grind ←] theorem harmless_setSendQueue {h : Option TcbPtr} {l : TcbPtr → Ring.Link TcbPtr} :
    Harmless (setSendQueue p h l) :=
  .bind harmless_modTcb fun _ => .modify _

@[grind ←] theorem harmless_setWakeupList {h : Option TcbPtr} {l : TcbPtr → Ring.Link TcbPtr} :
    Harmless (setWakeupList h l) :=
  .modify _

@[grind ←] theorem harmless_setReadyQueue {n : Int} {h : Option TcbPtr}
    {l : TcbPtr → Ring.Link TcbPtr} : Harmless (setReadyQueue n h l) :=
  .modify _

@[grind ←] theorem harmless_cancelTimeout : Harmless (cancelTimeout p) := by
  unfold cancelTimeout setWakeup
  repeat' first | with_reducible refine Throws.bind ?_ fun _ => ?_ | split
  all_goals grind

@[grind ←] theorem harmless_dequeueSend : Harmless (dequeueSend p q) := by
  unfold dequeueSend setSend
  repeat' with_reducible refine Throws.bind ?_ fun _ => ?_
  all_goals grind

@[grind ←] theorem harmless_dequeueReady : Harmless (dequeueReady p) := by
  unfold dequeueReady setReady
  repeat' first | with_reducible refine Throws.bind ?_ fun _ => ?_ | split
  all_goals grind

@[grind ←] theorem harmless_enqueueReady {b : Bool} : Harmless (enqueueReady p b) := by
  unfold enqueueReady setReady setMaxPrio
  repeat' first | with_reducible refine Throws.bind ?_ fun _ => ?_ | split
  all_goals grind

theorem harmless_drainSendQueue (n : Nat) : Harmless (drainSendQueue p n) := by
  induction n with
  | zero => exact harmless_hang
  | succ n ih =>
    unfold drainSendQueue
    refine .bind harmless_readTcb fun c => ?_
    split
    · exact .pure ()
    · exact .bind harmless_dequeueSend fun _ => ih

/-! ## Unwinding -/

/-- What `unwind` of `p` leaves alone: the identities, and all of the other threads but that some of
them may be running again. -/
structure Unwound (p : TcbPtr) (s t : KState) : Prop where
  utcb : ∀ q, (t.tcb q).utcb = (s.tcb q).utcb
  ident : ∀ q, (t.tcb q).myselfGlobal = (s.tcb q).myselfGlobal
  partner : ∀ q ≠ p, (t.tcb q).partner = (s.tcb q).partner
  state : ∀ q ≠ p, (t.tcb q).state = (s.tcb q).state ∨ (t.tcb q).state = .running

namespace Unwound

theorem refl : Unwound p s s := ⟨fun _ => rfl, fun _ => rfl, fun _ _ => rfl, fun _ _ => .inl rfl⟩

theorem trans (h : Unwound p s t) (h' : Unwound p t u) : Unwound p s u where
  utcb q := (h'.utcb q).trans (h.utcb q)
  ident q := (h'.ident q).trans (h.ident q)
  partner q hq := (h'.partner q hq).trans (h.partner q hq)
  state q hq := by
    rcases h'.state q hq with h1 | h1
    · rw [h1]
      exact h.state q hq
    · exact .inr h1

theorem of_untouched (h : Untouched (· = p) s t) : Unwound p s t where
  utcb := h.utcb
  ident := h.ident
  partner _ hq := h.partner hq
  state _ hq := .inl (h.state hq)

/-- Breaking off the IPC of a partner. -/
theorem of_abortPartner {err : Word} (h : abortPartner q tag err s = .ok ((), t)) :
    Unwound p s t := by
  have htouch := untouched_abortPartner (A := (· = q)) rfl s () t .refl h
  have hwp : wp (fun _ => True) (abortPartner q tag err)
      (fun _ r => (r.tcb q).state = .running ∧ (r.tcb q).partner = (s.tcb q).partner) s := by
    simp only [abortPartner, setErrorCode, setTag, setMr, setState, notify, pushFrame, wp_bind,
      wp_modUtcb, wp_modTcb, implies_true, true_and]
    intro _ _ _ _
    refine (keepsIpc_of_core keepsCore_enqueueReady).wp fun _ r hr => ?_
    have hr' := Untouched.of_ipc (A := fun _ => False) hr
    rw [hr'.state id, hr'.partner id]
    simp
  obtain ⟨hstate, hpartner⟩ := wp_iff_ok.mp hwp _ _ h
  refine ⟨htouch.utcb, htouch.ident, fun x _ => ?_, fun x _ => ?_⟩
  · rcases eq_or_ne x q with rfl | hx
    · exact hpartner
    · exact htouch.partner hx
  · rcases eq_or_ne x q with rfl | hx
    · exact .inr hstate
    · exact .inl (htouch.state hx)

/-- A thread that a later round finds was there from the beginning. -/
theorem findsActivated {st : ThreadState} {tid : ThreadId} (h : Unwound p s t)
    (hp : (s.tcb p).utcb ≠ none) (hs : s.FindsActivated p st tid) : t.FindsActivated p st tid := by
  intro q hq
  rw [h.utcb]
  rcases eq_or_ne q p with rfl | hne
  · exact hp
  refine hs q ?_
  rcases hq with ⟨hq, hst⟩ | ⟨hq, hst⟩
  · refine .inl ⟨hq, hst.imp ?_ id⟩
    rintro ⟨hst, hw, hpart⟩
    rw [h.partner q hne, h.ident] at hpart
    refine ⟨hst, ?_, hpart⟩
    rcases h.state q hne with h1 | h1
    · rwa [h1] at hw
    · rw [h1] at hw
      cases hw
  · refine .inr ⟨hq, hst.imp ?_ ?_⟩
    all_goals
      rintro ⟨hst, hw⟩
      refine ⟨hst, ?_⟩
      rcases h.state q hne with h1 | h1
      · rwa [h1] at hw
      · rw [h1] at hw
        cases hw

end Unwound

theorem harmless_calculateErrorcodes : Harmless (calculateErrorcodes .abort p q) := by
  unfold calculateErrorcodes
  grind

/-- What is kept of a thread until its saved state is restored. -/
structure Nested (p : TcbPtr) (s t : KState) : Prop where
  unwound : Unwound p s t
  savedState : (t.tcb p).savedState = (s.tcb p).savedState
  savedPartner : (t.tcb p).savedPartner = (s.tcb p).savedPartner

theorem Nested.of_running (h : Untouched (· = p) s t)
    (ht : t.tcb p = { s.tcb p with state := .running }) : Nested p s t :=
  ⟨.of_untouched h, by simp [ht], by simp [ht]⟩

theorem Nested.of_ipc (h : Nested p s t) (ht : u.ipc = t.ipc) : Nested p s u := by
  have htcb : (u.tcb p).ipc = (t.tcb p).ipc := congrFun (congrArg Prod.fst ht) p
  have hss : (u.tcb p).ipc.savedState = (t.tcb p).ipc.savedState := congrArg Tcb.savedState htcb
  have hsp : (u.tcb p).ipc.savedPartner = (t.tcb p).ipc.savedPartner :=
    congrArg Tcb.savedPartner htcb
  exact ⟨h.unwound.trans (.of_untouched (.of_ipc ht)), hss.trans h.savedState,
    hsp.trans h.savedPartner⟩

theorem keepsSaved_abortPartner {err : Word} :
    Keeps (fun s => ((s.tcb p).savedState, (s.tcb p).savedPartner)) (abortPartner q tag err) := by
  have hmod : ∀ f : Tcb → Tcb, (∀ c, ((f c).savedState, (f c).savedPartner) =
      (c.savedState, c.savedPartner)) →
      Keeps (fun s => ((s.tcb p).savedState, (s.tcb p).savedPartner)) (modTcb q f) := by
    refine fun f hf => .modify fun s => ?_
    rcases eq_or_ne p q with rfl | hne
    · simpa using hf (s.tcb p)
    · simp [hne]
  have hutcb : ∀ f, Keeps (fun s => ((s.tcb p).savedState, (s.tcb p).savedPartner)) (modUtcb q f) :=
    fun f => .bind keeps_getUtcb fun _ => .modify fun _ => rfl
  unfold abortPartner setErrorCode setTag setMr setState notify pushFrame
  refine .bind (hutcb _) fun _ => .bind (hutcb _) fun _ => .bind (hmod _ fun _ => rfl) fun _ => ?_
  refine .bind (hmod _ fun _ => rfl) fun _ => fun s a t ht => ?_
  have htcb := congrFun (congrArg Prod.fst (keepsIpc_of_core keepsCore_enqueueReady s a t ht)) p
  exact Prod.ext (congrArg Tcb.savedState htcb :) (congrArg Tcb.savedPartner htcb :)

theorem wp_abortPartner_safe {err : Word} (hq : (t.tcb q).utcb ≠ none) (h : Nested p s t) :
    wp NoNull (abortPartner q tag err) (fun _ r => Nested p s r) t := by
  obtain ⟨v, hv⟩ := Option.ne_none_iff_exists'.mp hq
  have hsafe : wp NoNull (abortPartner q tag err) (fun _ _ => True) t := by
    simp only [abortPartner, setErrorCode, setTag, setMr, setState, notify, pushFrame, wp_bind,
      wp_modUtcb, wp_modTcb, hv, reduceCtorEq, false_implies, true_and, Option.some.injEq,
      forall_eq']
    exact harmless_enqueueReady.wp (wp_iff_ok.mpr fun _ _ _ => trivial)
  cases hr : abortPartner q tag err t with
  | error e => simpa only [wp, hr] using wp_error hsafe hr
  | ok w =>
    obtain ⟨⟨⟩, r⟩ := w
    have hsaved := keepsSaved_abortPartner (p := p) t () r hr
    simp only [wp, hr]
    exact ⟨h.unwound.trans (.of_abortPartner hr), (congrArg Prod.fst hsaved).trans h.savedState,
      (congrArg Prod.snd hsaved).trans h.savedPartner⟩

/-- An access to the UTCB of the thread itself. -/
theorem wp_modUtcb_safe {f : Utcb → Utcb} (hp : (s.tcb p).utcb ≠ none) (h : Unwound p s t) :
    wp NoNull (modUtcb p f) (fun _ r => Unwound p s r) t := by
  have hpt : (t.tcb p).utcb ≠ none := by rwa [h.utcb]
  refine wp_modUtcb.mpr ⟨fun hnone => absurd hnone hpt, fun v _ => h.trans ?_⟩
  exact ⟨fun _ => rfl, fun _ => rfl, fun _ _ => rfl, fun _ _ => .inl rfl⟩

theorem wp_setIpcError_safe {err : Word} (hp : (s.tcb p).utcb ≠ none) (h : Unwound p s t) :
    wp NoNull (setIpcError p tag err) (fun _ r => Unwound p s r) t := by
  unfold setIpcError setTag setMr setErrorCode
  rw [wp_bind]
  exact wp_mono (wp_modUtcb_safe hp h) fun _ r hr => wp_modUtcb_safe hp hr

theorem wp_restoreState_safe (hp : (t.tcb p).utcb ≠ none) :
    wp NoNull (restoreState p) (fun _ r => Restored p t r) t := by
  obtain ⟨v, hv⟩ := Option.ne_none_iff_exists'.mp hp
  have hsafe : wp NoNull (restoreState p) (fun _ _ => True) t := by
    simp only [restoreState, restoreRegisters, setErrorCode, wp_bind, wp_readTcb, wp_modUtcb,
      wp_modTcb, hv, reduceCtorEq, false_implies, true_and, Function.update_self, implies_true]
  cases hr : restoreState p t with
  | error e => simpa only [wp, hr] using wp_error hsafe hr
  | ok w =>
    simp only [wp, hr]
    exact wp_iff_ok.mp wp_restoreState_restored _ _ hr

/-- The rounds of an abort. -/
theorem wp_unwindLoop_safe (n : Nat) : ∀ {s : KState} {tag : MsgTag}, (s.tcb p).utcb ≠ none →
    s.UnwindsSafely p →
    wp NoNull (unwindLoop p .abort n tag) (fun _ r => Unwound p s r) s := by
  induction n with
  | zero => exact fun _ _ => ⟨nofun, nofun⟩
  | succ n ih =>
    intro s tag hp hsafe
    -- A redo starts with the saved state of `s`.
    have hredo : ∀ {r tag'}, Nested p s r →
        ((s.tcb p).savedPartner.isNilthread = false ∨ (s.tcb p).state = .lockedRunningIpcDone) →
        wp NoNull (do restoreState p; unwindLoop p .abort n tag') (fun _ r => Unwound p s r) r := by
      intro r tag' hr hout
      have hpr : (r.tcb p).utcb ≠ none := by rwa [hr.unwound.utcb]
      rw [wp_bind]
      refine wp_mono (wp_restoreState_safe hpr) fun _ r' hr' => ?_
      have hun : Unwound p s r' := hr.unwound.trans (.of_untouched hr'.untouched)
      have hpr' : (r'.tcb p).utcb ≠ none := by rwa [hun.utcb]
      refine wp_mono (ih hpr' ⟨?_, ?_⟩) fun _ _ h => hun.trans h
      · rw [hr'.state, hr'.partner, hr.savedState, hr.savedPartner]
        exact hun.findsActivated hp (hsafe.outer hout)
      · rw [hr'.savedState, hr'.savedPartner]
        simp [KState.FindsActivated, KState.FindsReceiver, KState.FindsSender]
    have hlast : ∀ {r tag' tag'' err}, Nested p s r →
        wp NoNull (if (!(s.tcb p).savedPartner.isNilthread) = true then do
          restoreState p
          unwindLoop p .abort n tag'
        else setIpcError p tag'' err) (fun _ r => Unwound p s r) r := by
      intro r _ _ _ hr
      cases hnil : (s.tcb p).savedPartner.isNilthread with
      | false => exact hredo hr (.inl hnil)
      | true => exact wp_setIpcError_safe hp hr.unwound
    simp only [unwindLoop, getState, getPartnerTcb, wp_bind, wp_readTcb, wp_pure]
    refine wp_setRunning fun r htouch hr => ?_
    have hnested : Nested p s r := .of_running htouch hr
    have hinner := hsafe.inner
    rw [hr]
    cases hst : (s.tcb p).state with
    | lockedRunningIpcDone =>
      simp +decide only [ite_true, ite_false]
      exact hredo hnested (.inr hst)
    | lockedRunning =>
      have hiff := htouch.findsReceiver_iff (s.tcb p).partner hr hst
      rw [hst] at hinner
      simp +decide only [ite_true, ite_false, wp_bind]
      refine harmless_calculateErrorcodes.wp (keeps_calculateErrorcodes.wp fun err r' hr' => ?_)
      obtain rfl : r' = r := hr'
      rw [wp_readTcb, wp_readTcb, wp_ite]
      split
      · rename_i hG
        have hq := hinner _ (.inl (hiff.mpr hG))
        rw [← hnested.unwound.utcb] at hq
        rw [wp_bind]
        exact wp_mono (wp_abortPartner_safe hq hnested) fun _ _ h => hlast h
      · exact hlast hnested
    | lockedWaiting =>
      have hiff := htouch.findsSender_iff (s.tcb p).partner hr hst
      rw [hst] at hinner
      simp +decide only [ite_true, ite_false, wp_bind]
      refine harmless_calculateErrorcodes.wp (keeps_calculateErrorcodes.wp fun err r' hr' => ?_)
      obtain rfl : r' = r := hr'
      rw [wp_readTcb, wp_pure, wp_ite]
      split
      · rename_i hG
        have hq := hinner _ (.inr (hiff.mpr hG))
        rw [← hnested.unwound.utcb] at hq
        rw [wp_bind]
        exact wp_mono (wp_abortPartner_safe hq hnested) fun _ _ h => hlast h
      · exact hlast hnested
    | lockedRunningNested =>
      have hiff := htouch.findsTunnel_iff (s.tcb p).partner hr hst
      rw [hst] at hinner
      simp +decide only [ite_true, ite_false, wp_bind]
      refine harmless_calculateErrorcodes.wp (keeps_calculateErrorcodes.wp fun err r' hr' => ?_)
      obtain rfl : r' = r := hr'
      rw [wp_readTcb, wp_pure, wp_ite]
      split
      · rename_i hG
        have hq := hinner _ (.inr (hiff.mpr hG))
        rw [← hnested.unwound.utcb] at hq
        rw [wp_bind]
        exact wp_mono (wp_abortPartner_safe hq hnested) fun _ _ h => wp_setIpcError_safe hp h.unwound
      · exact wp_setIpcError_safe hp hnested.unwound
    | waitingTunneledPf =>
      rw [hst] at hinner
      simp +decide only [ite_true, ite_false, wp_bind]
      refine harmless_calculateErrorcodes.wp (keeps_calculateErrorcodes.wp fun err r' hr' => ?_)
      obtain rfl : r' = r := hr'
      have hq := hinner (getTcb (s.tcb p).partner) (.inl ⟨rfl, .inr rfl⟩)
      rw [← hnested.unwound.utcb] at hq
      exact wp_mono (wp_abortPartner_safe hq hnested) fun _ _ h => wp_setIpcError_safe hp h.unwound
    | waitingForever | waitingTimeout =>
      simp +decide only [ite_true, ite_false, wp_bind]
      refine harmless_cancelTimeout.wp ?_
      refine (keepsIpc_of_core keepsCore_cancelTimeout).wp fun _ r' hr' => ?_
      exact hlast (hnested.of_ipc hr')
    | polling =>
      simp +decide only [ite_true, ite_false, wp_bind]
      refine harmless_cancelTimeout.wp ?_
      refine (keepsIpc_of_core keepsCore_cancelTimeout).wp fun _ r' hr' => ?_
      refine harmless_dequeueSend.wp (keepsIpc_dequeueSend.wp fun _ r'' hr'' => ?_)
      exact hlast ((hnested.of_ipc hr').of_ipc hr'')
    | zero | running | halted | aborted =>
      simp +decide only [ite_false]
      exact hnested.unwound

theorem wp_unwind_safe (hp : (s.tcb p).utcb ≠ none) (h : s.UnwindsSafely p) :
    wp NoNull (unwind p .abort) (fun _ r => Unwound p s r) s := by
  simp only [unwind, getTag, getMr, wp_bind, wp_readUtcb, wp_pure]
  exact ⟨fun hnone => absurd hnone hp, fun _ _ => wp_unwindLoop_safe 3 hp h⟩

/-! ## Deletion -/

theorem KState.FindsActivated.congr {st : ThreadState} {tid : ThreadId}
    (h : s.FindsActivated p st tid) (ht : t.ipc = s.ipc) (hp : (s.tcb p).utcb ≠ none) :
    t.FindsActivated p st tid :=
  Unwound.findsActivated (.of_untouched (.of_ipc ht)) hp h

theorem KState.UnwindsSafely.congr (h : s.UnwindsSafely p) (ht : t.ipc = s.ipc)
    (hp : (s.tcb p).utcb ≠ none) : t.UnwindsSafely p := by
  have htcb : (t.tcb p).ipc = (s.tcb p).ipc := congrFun (congrArg Prod.fst ht) p
  have hst : (t.tcb p).ipc.state = (s.tcb p).ipc.state := congrArg Tcb.state htcb
  have hpt : (t.tcb p).ipc.partner = (s.tcb p).ipc.partner := congrArg Tcb.partner htcb
  have hss : (t.tcb p).ipc.savedState = (s.tcb p).ipc.savedState := congrArg Tcb.savedState htcb
  have hsp : (t.tcb p).ipc.savedPartner = (s.tcb p).ipc.savedPartner :=
    congrArg Tcb.savedPartner htcb
  constructor
  · have hinner := h.inner.congr ht hp
    rwa [← show (t.tcb p).state = (s.tcb p).state from hst,
      ← show (t.tcb p).partner = (s.tcb p).partner from hpt] at hinner
  · intro hout
    rw [show (t.tcb p).savedPartner = (s.tcb p).savedPartner from hsp,
      show (t.tcb p).state = (s.tcb p).state from hst] at hout
    have houter := (h.outer hout).congr ht hp
    rwa [← show (t.tcb p).savedState = (s.tcb p).savedState from hss,
      ← show (t.tcb p).savedPartner = (s.tcb p).savedPartner from hsp] at houter

theorem wp_deleteTcb_safe (h : (s.tcb p).isActivated →
      (s.tcb p).state.isSending ∨ (s.tcb p).state.isReceiving → s.UnwindsSafely p) :
    wp NoNull (deleteTcb p) (fun _ _ => True) s := by
  have htrue : ∀ {β : Type} {x : Kernel β} {t : KState}, Harmless x →
      wp NoNull x (fun _ _ => True) t :=
    fun hx => hx.wp (wp_iff_ok.mpr fun _ _ _ => trivial)
  have hdrain : Harmless (do
      drainSendQueue p numTcbs
      modTcb p fun c => { c with utcb := none }
      modTcb p fun c =>
        { c with
          myselfGlobal := .nilthread, myselfLocal := .nilthread
          space := none, state := .aborted }) :=
    .bind (harmless_drainSendQueue _) fun _ => .bind harmless_modTcb fun _ => harmless_modTcb
  rw [deleteTcb, wp_bind, wp_readTcb, wp_ite]
  split
  · rename_i hact
    have hp : (s.tcb p).utcb ≠ none := by
      simpa [Tcb.isActivated, Option.isSome_iff_ne_none] using hact
    rw [wp_bind]
    refine harmless_dequeueReady.wp ?_
    refine (keepsIpc_of_core keepsCore_dequeueReady).wp fun _ t ht => ?_
    have hpt : (t.tcb p).utcb ≠ none := by
      rw [(Untouched.of_ipc (A := fun _ => False) ht).utcb]
      exact hp
    simp only [getState, wp_bind, wp_readTcb, wp_pure, wp_ite]
    rw [(Untouched.of_ipc (A := fun _ => False) ht).state id]
    split
    · rename_i hipc
      refine wp_mono (wp_unwind_safe hpt ((h hact hipc).congr ht hp)) fun _ r _ => ?_
      simpa only [wp_bind] using htrue hdrain
    · simpa only [wp_bind] using htrue hdrain
  · exact trivial

theorem wp_removeTcb_safe {sp : Option SpacePtr} (hsp : sp ≠ none) :
    wp NoNull (removeTcb sp) (fun _ t => t.tcb = s.tcb ∧ t.currentTcb = s.currentTcb) s := by
  simp only [removeTcb, wp_bind, wp_derefSpace, wp_modSpace, wp_gets, wp_pure]
  exact ⟨fun hnone => absurd hnone hsp, fun _ _ => ⟨trivial, trivial⟩⟩

theorem wp_failWith_safe {err : Word} (h : s.current.utcb ≠ none) :
    wp NoNull (failWith err) (fun _ _ => True) s :=
  wp_failWith.mpr ⟨fun hnone => absurd hnone h, fun _ _ => trivial⟩

theorem wp_freeLast_safe (sp : SpacePtr) {b : Bool} :
    wp NoNull (if b = true then do unmapSpace sp; freeSpace sp else pure ()) (fun _ _ => True) s := by
  cases b with
  | false => exact trivial
  | true =>
    have hfree : Harmless (do unmapSpace sp; freeSpace sp) := by
      unfold unmapSpace freeSpace modKmem modSpace
      repeat' first | with_reducible refine Throws.bind ?_ fun _ => ?_ | split
      all_goals grind
    exact hfree.wp (wp_iff_ok.mpr fun _ _ _ => trivial)

theorem wp_threadDelete_safe (hcur : s.current.utcb ≠ none)
    (h : dest ≠ s.currentTcb → (s.tcb dest).isExisting → (s.tcb dest).isActivated →
      (s.tcb dest).state.isSending ∨ (s.tcb dest).state.isReceiving → s.UnwindsSafely dest) :
    wp NoNull (threadDelete dest) (fun _ _ => True) s := by
  rw [threadDelete, wp_bind, wp_getCurrentTcb, wp_ite]
  split
  · exact wp_failWith_safe hcur
  · rename_i hne
    rw [wp_bind, wp_readTcb, wp_ite]
    split
    · rename_i hex
      obtain ⟨sp, hsp⟩ := Option.isSome_iff_exists.mp hex
      rw [wp_bind]
      refine wp_mono (wp_deleteTcb_safe (h hne hex)) fun _ t _ => ?_
      rw [hsp, wp_bind]
      refine wp_mono (wp_removeTcb_safe (Option.some_ne_none sp)) fun b r _ => ?_
      cases b with
      | false => exact trivial
      | true =>
        have hfree := wp_freeLast_safe sp (s := r) (b := true)
        simpa only [derefSpace, wp_bind, wp_pure, wp_ite, if_true] using hfree
    · exact trivial

/-! ## Activation and migration -/

/-- No thread loses its UTCB. -/
structure Grows (s t : KState) : Prop where
  current : t.currentTcb = s.currentTcb
  utcb : ∀ q, (s.tcb q).utcb ≠ none → (t.tcb q).utcb ≠ none

theorem Grows.trans (h : Grows s t) (h' : Grows t u) : Grows s u :=
  ⟨h'.current.trans h.current, fun q hq => h'.utcb q (h.utcb q hq)⟩

theorem Grows.caller (h : Grows s t) (hs : s.current.utcb ≠ none) : t.current.utcb ≠ none := by
  rw [KState.current, h.current]
  exact h.utcb _ hs

theorem wp_allocateUtcb_safe {sp : Option SpacePtr} {loc : Word} (hsp : sp ≠ none) :
    wp NoNull (allocateUtcb sp loc)
      (fun _ t => t.tcb = s.tcb ∧ t.currentTcb = s.currentTcb) s := by
  obtain ⟨ptr, rfl⟩ := Option.ne_none_iff_exists'.mp hsp
  simp only [allocateUtcb, derefSpace, wp_bind, wp_pure, wp_gets]
  split
  · exact ⟨rfl, rfl⟩
  · rw [wp_bind, wp_gets]
    split
    · constructor <;> decide
    · simp only [zeroUtcbPage, wp_bind, wp_modKmem, wp_modify, wp_modSpace, wp_pure]
      exact ⟨trivial, trivial⟩

/-- A thread that has just got its UTCB. -/
structure Begun (dest : TcbPtr) (s t : KState) : Prop where
  grows : Grows s t
  utcb : (t.tcb dest).utcb ≠ none

theorem guards_modTcb {f : Tcb → Tcb} (hf : ∀ c, (f c).utcb = c.utcb) :
    Guards NoNull (Begun dest s) (modTcb dest f) := by
  refine .modify fun t h => ⟨h.grows.trans ⟨rfl, fun q hq => ?_⟩, ?_⟩
  · rcases eq_or_ne q dest with rfl | hne
    · simpa [hf] using hq
    · simpa [hne] using hq
  · simpa [hf] using h.utcb

theorem guards_modUtcb {f : Utcb → Utcb} : Guards NoNull (Begun dest s) (modUtcb dest f) := by
  intro t h
  refine wp_modUtcb.mpr ⟨fun hnone => absurd hnone h.utcb, fun _ _ => ?_⟩
  exact ⟨h.grows.trans ⟨rfl, fun _ => id⟩, h.utcb⟩

theorem wp_startThread_safe {pager : ThreadId} (hsp : (s.tcb dest).space ≠ none) :
    wp NoNull (startThread dest pager) (fun _ t => Begun dest s t) s := by
  rw [startThread, activate, wp_bind, wp_bind, wp_readTcb, wp_bind]
  refine wp_mono (wp_allocateUtcb_safe hsp) fun ptr t ht => ?_
  rw [wp_bind, wp_modTcb]
  rw [← wp_bind]
  refine Guards.bind ?_ (fun _ => ?_) _ ⟨⟨ht.2, fun q hq => ?_⟩, by simp⟩
  · unfold setGlobalId setPager setScheduler createStartupStack initStack notify pushFrame
    repeat' with_reducible refine Guards.bind ?_ fun _ => ?_
    all_goals first | exact guards_modUtcb | exact guards_modTcb fun _ => rfl
  · unfold fakeWaitForStartup setState setPartner setBr
    repeat' with_reducible refine Guards.bind ?_ fun _ => ?_
    all_goals first | exact guards_modUtcb | exact guards_modTcb fun _ => rfl
  · rcases eq_or_ne q dest with rfl | hne
    · simp
    · simpa [hne, ht.1] using hq

theorem wp_migrateToSpace_safe {sp : Option SpacePtr} (hsp : sp ≠ none)
    (hspace : (s.tcb dest).space ≠ none) (hutcb : (s.tcb dest).utcb ≠ none)
    (h : s.UnwindsSafely dest) :
    wp NoNull (migrateToSpace dest sp) (fun _ t => Begun dest s t ∧ (t.tcb dest).space = sp) s := by
  obtain ⟨new, rfl⟩ := Option.ne_none_iff_exists'.mp hsp
  rw [migrateToSpace, wp_bind, wp_readTcb, wp_bind]
  refine wp_mono (wp_allocateUtcb_safe hsp) fun ptr t ht => ?_
  have hfinds : ∀ st tid, t.FindsActivated dest st tid ↔ s.FindsActivated dest st tid := by
    intro st tid
    simp only [KState.FindsActivated, KState.FindsReceiver, KState.FindsSender, ht.1]
  have hsafe : t.UnwindsSafely dest := by
    refine ⟨(hfinds _ _).mpr ?_, fun hout => (hfinds _ _).mpr ?_⟩
    · rw [ht.1]
      exact h.inner
    · rw [ht.1] at hout ⊢
      exact h.outer hout
  have hutcb' : (t.tcb dest).utcb ≠ none := by rwa [ht.1]
  -- The space and the current thread are still there when the unwinding returns.
  have hunwind : wp NoNull (unwind dest .abort) (fun _ r => (Unwound dest t r ∧
      (r.tcb dest).space = (t.tcb dest).space) ∧ r.currentTcb = t.currentTcb) t := by
    cases hr : unwind dest .abort t with
    | error e => simpa only [wp, hr] using wp_error (wp_unwind_safe hutcb' hsafe) hr
    | ok w =>
      simp only [wp, hr]
      have hun := wp_ok (wp_unwind_safe hutcb' hsafe) (t := w.2) (a := w.1) hr
      refine ⟨⟨hun, ?_⟩, keepsCurrent_unwind _ _ _ hr⟩
      have hident := congrFun (congrArg Ident.tcb (keepsIdent_unwind _ _ _ hr)) dest
      exact congrArg TcbIdent.space hident
  rw [wp_bind]
  refine wp_mono hunwind fun _ r hr => ?_
  obtain ⟨⟨hun, hrspace⟩, hcur⟩ := hr
  have hrsp : (r.tcb dest).space ≠ none := by
    rw [hrspace, ht.1]
    exact hspace
  rw [wp_bind, wp_readTcb, wp_bind]
  refine wp_mono (wp_removeTcb_safe hrsp) fun b r' hr' => ?_
  obtain ⟨old, hold⟩ := Option.ne_none_iff_exists'.mp hrsp
  -- What is left to do changes the TCB of the destination only.
  have hend : ∀ r'', r''.tcb = r'.tcb → r''.currentTcb = r'.currentTcb →
      wp NoNull (do setSpace dest (some new); modTcb dest fun c => { c with utcb := some ptr })
        (fun _ t => Begun dest s t ∧ (t.tcb dest).space = some new) r'' := by
    intro r'' htcb hcur'
    simp only [setSpace, wp_bind, wp_modTcb]
    refine ⟨⟨⟨?_, fun q hq => ?_⟩, by simp⟩, by simp⟩
    · rw [hcur', hr'.2, hcur, ht.2]
    · rcases eq_or_ne q dest with rfl | hne
      · simp
      · have hq' : (r''.tcb q).utcb = (s.tcb q).utcb := by rw [htcb, hr'.1, hun.utcb, ht.1]
        simpa [hne, hq'] using hq
  cases b with
  | false => exact hend r' rfl rfl
  | true =>
    simp only [if_true, hold, derefSpace, wp_bind, wp_pure, unmapSpace, wp_gets, wp_modKmem,
      wp_modSpace]
    cases old with
    | idle => exact hend _ rfl rfl
    | heap addr => exact hend _ rfl rfl

/-! ## Modification -/

theorem wp_modifySettings_safe (hcur : s.current.utcb ≠ none) (hspace : (s.tcb dest).space ≠ none)
    (hident : (s.tcb dest).utcb = none → a.pagerTid.isNilthread = true →
      (s.tcb dest).myselfGlobal = a.destTid) :
    wp NoNull (modifySettings dest a) (fun _ _ => True) s := by
  -- The scheduler and the id, once the pager has been accepted.
  have hrest : ∀ t, ((t.tcb dest).utcb = none → (t.tcb dest).myselfGlobal = a.destTid) →
      wp NoNull (do
        if !a.schedulerTid.isNilthread then setScheduler dest a.schedulerTid
        if (← readTcb dest).myselfGlobal ≠ a.destTid then setGlobalId dest a.destTid
        pure true : Kernel Bool) (fun _ _ => True) t := by
    intro t ht
    have hid : ∀ r, ((r.tcb dest).utcb = none → (r.tcb dest).myselfGlobal = a.destTid) →
        wp NoNull (do
          if (← readTcb dest).myselfGlobal ≠ a.destTid then setGlobalId dest a.destTid
          pure true : Kernel Bool) (fun _ _ => True) r := by
      intro r hr
      rw [wp_bind, wp_readTcb, wp_ite]
      split
      · rename_i hne
        simp only [setGlobalId, wp_bind, wp_modTcb, wp_modUtcb, Function.update_self, wp_pure]
        exact ⟨fun hnone => absurd (hr hnone) hne, fun _ _ => trivial⟩
      · exact trivial
    rw [wp_ite]
    split
    · rw [wp_bind, setScheduler, wp_modTcb]
      refine hid _ ?_
      simpa using ht
    · exact hid t ht
  rw [modifySettings, wp_bind, modifyPager, wp_ite]
  split
  · rename_i hnil
    exact hrest s fun hnone => hident hnone hnil
  · rename_i hnil
    rw [wp_bind, wp_readTcb, wp_ite]
    split
    · rename_i hact
      have hutcb : (s.tcb dest).utcb ≠ none := Option.isSome_iff_ne_none.mp hact
      simp only [setPager, wp_bind, wp_modUtcb, wp_pure]
      refine ⟨fun hnone => absurd hnone hutcb, fun _ _ => ?_⟩
      exact hrest _ fun hnone => absurd hnone hutcb
    · rw [wp_bind, wp_checkUtcbLocation]
      refine ⟨fun hnone => absurd hnone hspace, fun sp hsp => ?_⟩
      rw [wp_ite]
      split
      · rw [wp_bind]
        refine wp_mono (wp_startThread_safe hspace) fun _ t ht => ?_
        rw [wp_pure]
        exact hrest t fun hnone => absurd hnone ht.utcb
      · rw [wp_pure]
        exact wp_failWith_safe hcur

theorem wp_modifyThread_safe {sp : Option SpacePtr} (hcur : s.current.utcb ≠ none)
    (hspace : (s.tcb dest).space ≠ none)
    (hmigrate : (s.tcb dest).space ≠ sp →
      sp ≠ none ∧ (s.tcb dest).utcb ≠ none ∧ s.UnwindsSafely dest)
    (hident : (s.tcb dest).utcb = none → a.pagerTid.isNilthread = true →
      (s.tcb dest).myselfGlobal = a.destTid) :
    wp NoNull (modifyThread dest a sp) (fun _ _ => True) s := by
  rw [modifyThread, wp_bind, wp_readTcb, wp_ite]
  split
  · rename_i hne
    obtain ⟨hsp, hutcb, hsafe⟩ := hmigrate hne
    rw [wp_bind]
    refine wp_mono (wp_migrateToSpace_safe hsp hspace hutcb hsafe) fun _ t ht => ?_
    refine wp_modifySettings_safe (ht.1.grows.caller hcur) ?_ fun hnone => absurd hnone ht.1.utcb
    rw [ht.2]
    exact hsp
  · exact wp_modifySettings_safe hcur hspace hident

theorem wp_threadModify_safe (hcur : s.current.utcb ≠ none) (hex : (s.tcb dest).isExisting)
    (hmigrate : s.NamesSpace a → (s.tcb dest).space ≠ (s.tcb (getTcb a.spaceTid)).space →
      (s.tcb (getTcb a.spaceTid)).space ≠ none ∧ (s.tcb dest).utcb ≠ none ∧ s.UnwindsSafely dest)
    (hident : s.NamesSpace a → (s.tcb dest).utcb = none → a.pagerTid.isNilthread = true →
      (s.tcb dest).myselfGlobal = a.destTid) :
    wp NoNull (threadModify dest a) (fun _ _ => True) s := by
  have hspace : (s.tcb dest).space ≠ none := Option.isSome_iff_ne_none.mp hex
  rw [threadModify, wp_bind, wp_modifyUtcbLocation]
  split
  · rw [if_pos rfl, wp_bind, wp_readTcb, wp_ite]
    split
    · exact wp_failWith_safe hcur
    · rename_i hnames
      have hnames : s.NamesSpace a := not_not.mp hnames
      exact wp_modifyThread_safe hcur hspace (hmigrate hnames) (hident hnames)
  · split
    · exact wp_failWith_safe hcur
    · rename_i hinactive
      have hnone : (s.tcb dest).utcb = none := by
        simpa [Tcb.isActivated] using hinactive
      refine ⟨fun h => absurd h hspace, fun sp hsp => ?_⟩
      split
      · -- An inactive thread stays in its space.
        have hcur' : (s.withLocation dest a.utcbLocation).current.utcb ≠ none := by
          rw [KState.current, KState.withLocation_utcb]
          exact hcur
        rw [if_pos rfl, wp_bind, wp_readTcb, wp_ite, KState.withLocation_myselfGlobal,
          KState.withLocation_space]
        split
        · exact wp_failWith_safe hcur'
        · rename_i hnames
          have hnames : s.NamesSpace a := not_not.mp hnames
          refine wp_modifyThread_safe hcur' ?_ ?_ ?_
          · rw [KState.withLocation_space]
            exact hspace
          · rw [KState.withLocation_space]
            exact fun hne => absurd hnone (hmigrate hnames hne).2.1
          · rw [KState.withLocation_utcb, KState.withLocation_myselfGlobal]
            exact hident hnames
      · exact wp_failWith_safe hcur

/-! ## Creation -/

theorem wp_newThreadSpace_safe
    (hsp : a.destTid ≠ a.spaceTid → (s.tcb (getTcb a.spaceTid)).space ≠ none) :
    wp NoNull (newThreadSpace a) (fun sp _ => sp ≠ none) s := by
  rw [newThreadSpace, wp_ite]
  split
  · rename_i hne
    exact hsp hne
  · rw [wp_bind, allocateSpace, wp_bind, wp_gets]
    split
    · constructor <;> decide
    · exact Option.some_ne_none _

theorem wp_createThread_safe (hdest : (s.tcb dest).space = none)
    (hsp : a.destTid ≠ a.spaceTid → (s.tcb (getTcb a.spaceTid)).space ≠ none) :
    wp NoNull (createThread dest a) (fun _ _ => True) s := by
  -- From the choice of the space on; the TCB of the specifier is not that of the destination.
  have hrest : ∀ t : KState, (∀ q ≠ dest, (t.tcb q).space = (s.tcb q).space) →
      wp NoNull (do
        let space ← newThreadSpace a
        setSpace dest space
        addTcb space
        if !a.pagerTid.isNilthread then startThread dest a.pagerTid : Kernel Unit)
        (fun _ _ => True) t := by
    intro t ht
    have hsp' : a.destTid ≠ a.spaceTid → (t.tcb (getTcb a.spaceTid)).space ≠ none := by
      intro hne
      have hslot : getTcb a.spaceTid ≠ dest := by
        rintro rfl
        exact hsp hne hdest
      rw [ht _ hslot]
      exact hsp hne
    rw [wp_bind]
    refine wp_mono (wp_newThreadSpace_safe hsp') fun sp r hr => ?_
    simp only [setSpace, addTcb, wp_bind, wp_modTcb, wp_derefSpace, wp_modSpace]
    refine ⟨fun hnone => absurd hnone hr, fun ptr _ => ?_⟩
    split
    · refine wp_mono (wp_startThread_safe ?_) fun _ _ _ => trivial
      simpa using hr
    · exact trivial
  rw [createThread, createInactive, wp_bind, wp_bind, wp_init, wp_modTcb, wp_ite]
  split
  · rw [wp_bind, setUtcbLocation, wp_modTcb]
    exact hrest _ fun q hq => by simp [hq]
  · exact hrest _ fun q hq => by simp [hq]

theorem wp_createCheck_safe
    (hsp : a.destTid ≠ a.spaceTid → s.NamesSpace a → (s.tcb (getTcb a.spaceTid)).space ≠ none) :
    wp NoNull (createCheck a)
      (fun r t => t = s ∧ (r = none → a.destTid = a.spaceTid ∨ s.NamesSpace a)) s := by
  rw [createCheck, wp_bind, wp_readTcb, wp_ite]
  split
  · exact ⟨rfl, fun hr => by cases hr⟩
  · rw [wp_ite]
    split
    · exact ⟨rfl, fun hr => by cases hr⟩
    · rename_i hnames
      have hnames : a.destTid = a.spaceTid ∨ s.NamesSpace a := by
        by_contra hcon
        rw [not_or] at hcon
        exact hnames ⟨hcon.1, hcon.2⟩
      rw [wp_ite]
      split
      · exact ⟨rfl, fun _ => hnames⟩
      · rw [wp_ite]
        split
        · exact ⟨rfl, fun hr => by cases hr⟩
        · rename_i hne
          have hspace := hsp hne (hnames.resolve_left hne)
          rw [wp_bind, wp_readSpace]
          refine ⟨fun hnone => absurd hnone hspace, fun sp _ => ?_⟩
          rw [wp_ite]
          split
          · exact ⟨rfl, fun hr => by cases hr⟩
          · rw [wp_ite]
            split
            · exact ⟨rfl, fun hr => by cases hr⟩
            · rw [wp_bind, wp_checkUtcbLocation]
              refine ⟨fun hnone => absurd hnone hspace, fun sp _ => ?_⟩
              rw [wp_ite]
              split
              · exact ⟨rfl, fun _ => hnames⟩
              · exact ⟨rfl, fun hr => by cases hr⟩

theorem wp_threadCreate_safe (hcur : s.current.utcb ≠ none) (hdest : (s.tcb dest).space = none)
    (hsp : a.destTid ≠ a.spaceTid → s.NamesSpace a → (s.tcb (getTcb a.spaceTid)).space ≠ none) :
    wp NoNull (threadCreate dest a) (fun _ _ => True) s := by
  rw [threadCreate, wp_bind]
  refine wp_mono (wp_createCheck_safe hsp) fun r t ht => ?_
  obtain ⟨rfl, hnames⟩ := ht
  cases r with
  | some err => exact wp_failWith_safe hcur
  | none =>
    rw [wp_bind]
    refine wp_mono (wp_createThread_safe hdest fun hne => ?_) fun _ _ _ => trivial
    exact hsp hne ((hnames rfl).resolve_left hne)

/-! ## The call -/

theorem harmless_threadControlInterrupt {tid handler : ThreadId} :
    Harmless (threadControlInterrupt tid handler) := by
  unfold threadControlInterrupt createKernelThread Kernel.init initTcb initStack setTimesliceLength
    setTotalQuantum setSensitivePrio setMaximumDelay setPriority notify pushFrame setScheduler
    setIntMask setState
  dsimp only
  repeat' first | with_reducible refine Throws.bind ?_ fun _ => ?_ | split
  all_goals grind

/-- The thread in the slot of `sampleTid 0` under another version. -/
def sampleTidVersion : ThreadId := .threadid (userBase + 3) 2

end L4Thread
