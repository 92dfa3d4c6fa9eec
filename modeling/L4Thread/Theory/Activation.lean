import L4Thread.Theory.Activity
import L4Thread.Theory.Failure

/-!
# Only activated threads run

Thread control is what makes threads activated and what deletes them. A deleted thread must not be
in the wakeup queue: the timer makes every thread in it running, whatever has become of it.
-/

namespace L4Thread

open TrapM Kernel Ring

variable {s t : KState} {p q : TcbPtr} {A C : TcbPtr → Prop} {α : Type}

/-! ## Spaces and kernel memory -/

@[grind ←] theorem keepsActivity_modSpace {sp : SpacePtr} {f : Space → Space} :
    KeepsActivity (modSpace sp f) := .modify fun _ => rfl

@[grind ←] theorem keepsActivity_modKmem {f : Kmem → Kmem} : KeepsActivity (modKmem f) :=
  .modify fun _ => rfl

@[grind ←] theorem keepsActivity_zeroUtcbPage {page : Nat} : KeepsActivity (zeroUtcbPage page) :=
  .modify fun _ => rfl

@[grind ←] theorem keepsActivity_setIntMask {irq : Nat} {b : Bool} :
    KeepsActivity (setIntMask irq b) := .modify fun _ => rfl

theorem keepsActivity_allocateSpace : KeepsActivity allocateSpace := by
  unfold allocateSpace
  grind

theorem keepsActivity_freeSpace {sp : SpacePtr} : KeepsActivity (freeSpace sp) := by
  unfold freeSpace
  grind

theorem keepsActivity_unmapSpace {sp : SpacePtr} : KeepsActivity (unmapSpace sp) := by
  unfold unmapSpace
  grind

theorem keepsActivity_addTcb {sp : Option SpacePtr} : KeepsActivity (addTcb sp) := by
  unfold addTcb
  grind

theorem keepsActivity_removeTcb {sp : Option SpacePtr} : KeepsActivity (removeTcb sp) := by
  unfold removeTcb
  grind

theorem keepsActivity_allocateUtcb {sp : Option SpacePtr} {loc : Word} :
    KeepsActivity (allocateUtcb sp loc) := by
  unfold allocateUtcb
  refine .bind keeps_derefSpace fun sp => .bind (.gets _) fun c => ?_
  dsimp only
  split
  · exact .pure _
  · refine .bind (.gets _) fun k => ?_
    split
    · exact .trap _
    · refine .bind keepsActivity_modKmem fun _ => .bind keepsActivity_zeroUtcbPage fun _ => ?_
      exact .bind keepsActivity_modSpace fun _ => .pure _

/-- A UTCB is only allocated in a space. -/
theorem returns_allocateUtcb {sp : Option SpacePtr} {loc : Word} :
    Returns (fun _ => sp.isSome) (allocateUtcb sp loc) := by
  cases sp with
  | none =>
    intro s a t h
    cases h
  | some sp => exact fun _ _ _ _ => rfl

/-! ## Creation and activation -/

theorem Frame.Fits.none {f : Frame} {space : Option SpacePtr} (h : f.Fits space) :
    f.Fits .none := by
  cases f with
  | notify n =>
    cases n with
    | ipcTimeout => exact h
    | _ => trivial
  | _ => trivial

/-- The frames of a thread in a space are those of a thread in any space. -/
theorem Frame.Fits.move {f : Frame} {space space' : Option SpacePtr} (h : f.Fits space)
    (hsp : space.isSome) : f.Fits space' := by
  cases f with
  | notify n =>
    cases n with
    | ipcTimeout => exact h
    | irqThread =>
      rw [show space = .none from h] at hsp
      cases hsp
    | _ => trivial
  | irqSent | irqIdle =>
    rw [show space = .none from h] at hsp
    cases hsp
  | _ => trivial

/-- A change of the ids or the scheduler of an initialised thread. -/
theorem preservesSoundAt_modIdent {f : Tcb → Tcb}
    (h : ∀ c, (f c).activity = { c.activity with ident := (f c).ident } ∧
      (f c).utcb = c.utcb ∧ (f c).space = c.space) :
    Preserves (KState.SoundAt A C p) (modTcb p f) := by
  refine .modify fun s hs => ?_
  obtain ⟨hact, hutcb, hspace⟩ := h (s.tcb p)
  have hstate : (f (s.tcb p)).state = (s.tcb p).state := congrArg TcbActivity.state hact
  have hzero : (f (s.tcb p)).state ≠ .zero := by
    rw [hstate]
    exact hs.2
  have hiff : (f (s.tcb p)).ident.Activated ↔ (s.tcb p).ident.Activated := by
    change (f (s.tcb p)).utcb.isSome ∧ (f (s.tcb p)).space.isSome ↔ _
    rw [hutcb, hspace]
    rfl
  refine ⟨hs.1.setTcb hiff (congrArg TcbActivity.wakeup hact) ?_ fun hz => absurd hz hzero, ?_⟩
  · have hc := hs.1.tcb p
    rw [hact]
    refine ⟨hc.resting.imp_left hiff.mpr, fun hz => absurd hz hs.2, hc.state, hc.saved,
      fun g hg => ?_⟩
    change g.Fits (f (s.tcb p)).space
    rw [hspace]
    exact hc.frames g hg
  · change (Function.update s.tcb p (f (s.tcb p)) p).state ≠ .zero
    rw [Function.update_self]
    exact hzero

/-- An activated thread with another identity, in the same or another space. -/
theorem TcbActivity.Sound.setIdent {a : TcbActivity} {i : TcbIdent} (h : a.Sound)
    (ha : a.ident.Activated) (hi : i.Activated) : TcbActivity.Sound { a with ident := i } :=
  ⟨.inl hi, fun hz => absurd hz (h.used_state ha).1, h.state, h.saved,
    fun f hf => (h.frames f hf).move ha.2⟩

/-- The rest of `activate` and `fake_wait_for_startup`. -/
theorem preservesSound_startup {global scheduler pager : ThreadId} {startup : Notify} (hp : A p)
    (hstartup : ∀ space, (Frame.notify startup).Fits space) :
    Preserves (KState.Sound A C) (do
      setGlobalId p global
      setPager p pager
      modUtcb p fun u => { u with processorNo := 0 }
      setScheduler p scheduler
      modUtcb p fun u => { u with exceptionHandler := .nilthread }
      createStartupStack p startup) := by
  unfold setGlobalId setPager setScheduler createStartupStack initStack notify
  refine .bind (.bind ?_ fun _ => preservesSound_modUtcb) fun _ => ?_
  · refine preservesSound_modTcb hp fun c hc ha => ?_
    exact ⟨ha, rfl, (hc.used_state ha).1, hc.setIdent ha ha⟩
  refine .bind preservesSound_modUtcb fun _ => .bind preservesSound_modUtcb fun _ => ?_
  refine .bind ?_ fun _ => .bind preservesSound_modUtcb fun _ => .bind ?_ fun _ => ?_
  · refine preservesSound_modTcb hp fun c hc ha => ?_
    exact ⟨ha, rfl, (hc.used_state ha).1, hc.setIdent ha ha⟩
  · exact .modify fun s hs => hs.setTcb .rfl rfl ((hs.tcb p).setStack
      (List.forall_mem_nil _)) id
  · refine .bind (preservesSound_pushFrame hstartup) fun _ => ?_
    exact preservesSound_of_eq fun _ => rfl

/-- The activation of an initialised thread. -/
theorem leads_activate {startup : Notify} {pager : ThreadId}
    (hstartup : ∀ space, (Frame.notify startup).Fits space) :
    Leads (KState.SoundAt A C p) (activate p startup pager)
      (fun _ t => ∃ A', t.Sound A' C ∧ A' p) := by
  refine .of_wp fun s h => ?_
  rw [activate, wp_bind, wp_readTcb, wp_bind, wp_iff_ok]
  intro utcb r hr
  have hspace := returns_allocateUtcb s utcb r hr
  have hrs : r.activity = s.activity := keepsActivity_allocateUtcb s utcb r hr
  have hrsound : r.Sound A C := by
    rw [KState.Sound, hrs]
    exact h.1
  have hp : (r.tcb p).activity = (s.tcb p).activity := congrFun (congrArg Activity.tcb hrs) p
  have hrspace : (r.tcb p).space = (s.tcb p).space :=
    congrArg (fun a : TcbActivity => a.ident.space) hp
  have hrstate : (r.tcb p).state = (s.tcb p).state := congrArg TcbActivity.state hp
  rw [wp_bind, wp_modTcb]
  have hact : ({ r.tcb p with utcb := some utcb } : Tcb).ident.Activated := by
    refine ⟨rfl, ?_⟩
    change (r.tcb p).space.isSome = true
    rw [hrspace]
    exact hspace
  have hset : KState.Sound (Function.update A p _) C _ :=
    hrsound.replaceTcb (p := p) (fun _ => .inl hact) rfl (by
      have hc := hrsound.tcb p
      refine ⟨.inl hact, fun hz => absurd (hrstate.symm.trans hz) h.2, hc.state, hc.saved,
        hc.frames⟩) id
  have hA : Function.update A p ({ r.tcb p with utcb := some utcb } : Tcb).ident.Activated p := by
    rw [Function.update_self]
    exact hact
  exact (preservesSound_startup hA hstartup).wp hset fun _ t ht => ⟨_, ht, hA⟩

theorem leads_startThread {pager : ThreadId} :
    Leads (KState.SoundAt A C p) (startThread p pager) (fun _ t => ∃ A', t.SoundAt A' C p) := by
  refine .bind (leads_activate fun _ => trivial) fun _ => ?_
  rintro s a t ⟨A', hs, hp⟩ hrun
  have hfake : Preserves (KState.Sound A' C) (fakeWaitForStartup p pager) := by
    unfold fakeWaitForStartup setBr
    refine .bind (preservesSound_setState hp (by decide)) fun _ => ?_
    refine .bind preservesSound_setPartner fun _ => .bind preservesSound_modUtcb fun _ => ?_
    refine preservesSound_modTcb hp fun c hc ha => ?_
    have hused := hc.used_state ha
    exact ⟨ha, rfl, hused.1, hc.setStates ha hused ThreadState.used_running⟩
  have ht := hfake s a t hs hrun
  exact ⟨A', ht, ht.initialised hp⟩

/-! ## Deletion -/

/-- A thread that is polling or waiting is taken out of the wakeup queue. -/
theorem wp_unwindLoop_clear {reason : UnwindReason} {tag : MsgTag} {n : Nat} (h : s.Sound A C)
    (hp : A p) (hblocked : (s.tcb p).state.isPolling ∨ (s.tcb p).state.isWaiting) :
    wp (fun _ => True) (unwindLoop p reason (n + 1) tag)
      (fun _ t => t.Sound A (fun q => C q ∨ q = p)) s := by
  simp only [unwindLoop, getState, getPartnerTcb, wp_bind, wp_readTcb, wp_pure]
  refine (preservesSound_setState hp (by decide)).wp h fun _ r hr => ?_
  rw [if_pos hblocked, wp_bind, wp_iff_ok]
  intro _ u hu
  have hu' := leads_cancelTimeout r _ u hr hu
  have hrest : ∀ {b : Bool} {tag tag' : MsgTag} {err : Word},
      Preserves (KState.Sound A (fun q => C q ∨ q = p))
        (if b = true then do
          restoreState p
          unwindLoop p reason n tag
        else do
          setTag p tag'
          setErrorCode p err) := by
    intro b _ _ _
    cases b with
    | true => exact .bind (preservesSound_restoreState hp) fun _ => preservesSound_unwindLoop hp n
    | false => exact .bind preservesSound_setTag fun _ => preservesSound_setErrorCode
  split
  · rw [wp_bind]
    refine keepsActivity_dequeueSend.preserves.wp hu' fun _ v hv => ?_
    exact hrest.wp hv fun _ _ ht => ht
  · exact hrest.wp hu' fun _ _ ht => ht

theorem wp_unwind_clear {reason : UnwindReason} (h : s.Sound A C) (hp : A p)
    (hblocked : (s.tcb p).state.isPolling ∨ (s.tcb p).state.isWaiting) :
    wp (fun _ => True) (unwind p reason)
      (fun _ t => t.Sound A (fun q => C q ∨ q = p)) s := by
  rw [unwind, wp_bind]
  exact wp_getTag (wp_unwindLoop_clear h hp hblocked)

theorem preservesSound_drainSendQueue (n : Nat) :
    Preserves (KState.Sound A C) (drainSendQueue p n) := by
  induction n with
  | zero => exact .trap _
  | succ n ih =>
    unfold drainSendQueue
    refine .bind (.gets _) fun c => ?_
    split
    · exact .pure _
    · exact .bind keepsActivity_dequeueSend.preserves fun _ => ih

theorem keepsCurrent_drainSendQueue (n : Nat) : KeepsCurrent (drainSendQueue p n) := by
  induction n with
  | zero => exact .trap _
  | succ n ih =>
    unfold drainSendQueue
    refine .bind (.gets _) fun c => ?_
    split
    · exact .pure _
    · exact .bind keepsCurrent_dequeueSend fun _ => ih

/-- The state of some activated threads is sound. -/
def KState.Settled (s : KState) : Prop := ∃ A, s.SoundAfter A

/-- The TCB of a deleted thread. -/
theorem KState.Sound.deleted {c : Tcb} (h : s.SoundAfter A) (hcur : p ≠ s.currentTcb)
    (hidle : p ≠ .idle) (hwake : (s.tcb p).queueState.wakeup = false)
    (hinit : (s.tcb p).state ≠ .zero) (hstate : c.state = .aborted) (hspace : c.space = none)
    (hrest : c.savedState = (s.tcb p).savedState ∧ c.stack = (s.tcb p).stack ∧
      c.queueState = (s.tcb p).queueState) :
    KState.Settled { s with tcb := Function.update s.tcb p c } := by
  have hc := h.tcb p
  refine ⟨_, h.replaceTcb (fun _ => .inr ⟨hcur, hidle, hwake⟩) ?_ ?_ ?_⟩
  · rw [hrest.2.2]
  · refine ⟨.inr (.inr (.inl hstate)), ?_, ?_, ?_, ?_⟩
    · intro hz
      cases hstate.symm.trans hz
    · intro hz
      cases hstate.symm.trans hz
    · change c.savedState ≠ .waitingTunneledPf ∧ (c.savedState = .zero → c.state = .zero)
      rw [hrest.1]
      exact ⟨hc.saved.1, fun hz => absurd (hc.saved.2 hz) hinit⟩
    · intro f hf
      change f.Fits c.space
      change f ∈ c.stack at hf
      rw [hrest.2.1] at hf
      rw [hspace]
      exact (hc.frames f hf).none
  · intro hz
    cases hstate.symm.trans hz

theorem wp_deleteTcb_settled (h : s.SoundAfter A) (hcur : p ≠ s.currentTcb) (hidle : p ≠ .idle)
    (hinit : (s.tcb p).state ≠ .zero) (hspace : (s.tcb p).space.isSome)
    (hwake : (s.tcb p).queueState.wakeup = true →
      (s.tcb p).state.isPolling ∨ (s.tcb p).state.isWaiting) :
    wp (fun _ => True) (deleteTcb p) (fun _ t => t.Settled) s := by
  rw [deleteTcb, wp_bind, wp_readTcb]
  cases hact : (s.tcb p).isActivated with
  | false =>
    simp only [Bool.false_eq_true, if_false, wp_modTcb]
    refine h.deleted hcur hidle ?_ hinit rfl rfl ⟨rfl, rfl, rfl⟩
    cases hw : (s.tcb p).queueState.wakeup with
    | false => rfl
    | true =>
      have hutcb : (s.tcb p).utcb.isSome := ((h.activated p).mpr (h.of_wakeup hw)).1
      rw [show (s.tcb p).utcb.isSome = false from hact] at hutcb
      cases hutcb
  | true =>
    have hp : A p := (h.activated p).mp ⟨hact, hspace⟩
    simp only [if_true, wp_bind]
    rw [wp_iff_ok]
    intro _ r hr
    have hrs : r.SoundAfter A := preservesSound_dequeueReady s _ r h hr
    have hrcur : r.currentTcb = s.currentTcb := keepsCurrent_of_core keepsCore_dequeueReady s _ r hr
    have hcore := congrFun (congrArg Core.tcb (keepsCore_dequeueReady s _ r hr)) p
    have hstate : (r.tcb p).core.state = (s.tcb p).core.state := congrArg Tcb.state hcore
    change (r.tcb p).state = (s.tcb p).state at hstate
    have hbit : (r.tcb p).queueState.wakeup = (s.tcb p).queueState.wakeup :=
      congrFun (congrArg Prod.fst (keepsTimeouts_dequeueReady s _ r hr)) p
    -- The rest of the deletion, with the thread out of the wakeup queue.
    have hrest : ∀ {u : KState}, u.Sound A (fun q => False ∨ q = p) →
        u.currentTcb = s.currentTcb →
        wp (fun _ => True)
          (do
            drainSendQueue p numTcbs
            modTcb p fun c => { c with utcb := none }
            modTcb p fun c =>
              { c with
                myselfGlobal := .nilthread, myselfLocal := .nilthread
                space := none, state := .aborted }) (fun _ t => t.Settled) u := by
      intro u hu hucur
      rw [wp_bind, wp_iff_ok]
      intro _ v hv
      have hvs := preservesSound_drainSendQueue numTcbs u _ v hu hv
      have hvcur : v.currentTcb = s.currentTcb :=
        (keepsCurrent_drainSendQueue numTcbs u _ v hv).trans hucur
      simp only [wp_bind, wp_modTcb, Function.update_self, Function.update_idem]
      refine hvs.after.deleted ?_ hidle (hvs.wakeup_clear (.inr rfl)) (hvs.initialised hp) rfl rfl
        ⟨rfl, rfl, rfl⟩
      rw [hvcur]
      exact hcur
    simp only [getState, wp_bind, wp_readTcb, wp_pure]
    rw [hstate]
    by_cases hblocked : (s.tcb p).state.isPolling ∨ (s.tcb p).state.isWaiting
    · have hipc : (s.tcb p).state.isSending ∨ (s.tcb p).state.isReceiving := by
        revert hblocked
        cases (s.tcb p).state <;> decide
      rw [if_pos hipc, wp_bind, wp_iff_ok]
      intro _ u hu
      rw [← hstate] at hblocked
      have hus := wp_iff_ok.mp (wp_unwind_clear hrs hp hblocked) _ u hu
      exact hrest hus ((keepsCurrent_unwind r _ u hu).trans hrcur)
    · have hclear : (r.tcb p).queueState.wakeup = false := by
        rw [hbit]
        exact Bool.eq_false_iff.mpr fun hw => hblocked (hwake hw)
      have hrs' := hrs.recall hclear
      split
      · rw [wp_bind, wp_iff_ok]
        intro _ u hu
        have hus := preservesSound_unwind hp r _ u hrs' hu
        exact hrest hus ((keepsCurrent_unwind r _ u hu).trans hrcur)
      · exact hrest hrs' hrcur

/-! ## Thread control -/

section Control

variable {a : ThreadControlArgs}

theorem KState.Settled.of_activity {x : Kernel α} (hx : KeepsActivity x) :
    Preserves KState.Settled x := by
  rintro s r t ⟨A, hs⟩ hrun
  exact ⟨A, hx.preserves s r t hs hrun⟩

theorem preservesSettled_failWith {err : Word} : Preserves KState.Settled (failWith err) := by
  unfold failWith setErrorCode
  refine KState.Settled.of_activity ?_
  exact .bind (.gets _) fun _ => .bind keepsActivity_modUtcb fun _ => .pure _

/-- What thread control needs of a deletion. -/
def KState.Quiet (s : KState) (p : TcbPtr) : Prop :=
  (s.tcb p).queueState.wakeup = true → (s.tcb p).state.isPolling ∨ (s.tcb p).state.isWaiting

instance (s : KState) (p : TcbPtr) : Decidable (s.Quiet p) := inferInstanceAs (Decidable (_ → _))

theorem KState.Sound.initialised_of_space (h : s.Sound A C) (hp : (s.tcb p).space.isSome) :
    (s.tcb p).state ≠ .zero := by
  intro hz
  have hspace : (s.tcb p).space = none := ((h.tcb p).unused hz).2.1
  rw [hspace] at hp
  cases hp

theorem wp_threadDelete_settled (h : s.SoundAfter A) (hidle : p ≠ .idle) (hquiet : s.Quiet p) :
    wp (fun _ => True) (threadDelete p) (fun _ t => t.Settled) s := by
  simp only [threadDelete, wp_bind, wp_getCurrentTcb]
  split
  · exact preservesSettled_failWith.wp ⟨A, h⟩ fun _ _ ht => ht
  · rename_i hcur
    simp only [wp_bind, wp_readTcb]
    split
    · rename_i hex
      rw [wp_bind]
      refine wp_mono (wp_deleteTcb_settled h hcur hidle (h.initialised_of_space hex) hex hquiet)
        fun _ t ht => ?_
      have hkeep : KeepsActivity (do
          if ← removeTcb (s.tcb p).space then
            let sp ← derefSpace (s.tcb p).space
            unmapSpace sp
            freeSpace sp
          pure true) := by
        refine .bind keepsActivity_removeTcb fun b => ?_
        dsimp only
        split
        · refine .bind keeps_derefSpace fun _ => .bind keepsActivity_unmapSpace fun _ => ?_
          exact .bind keepsActivity_freeSpace fun _ => .pure _
        · exact .pure _
      exact (KState.Settled.of_activity hkeep).wp ht fun _ _ hu => hu
    · exact ⟨A, h⟩

/-- The state is settled and `p` is initialised. -/
def KState.SettledAt (p : TcbPtr) (s : KState) : Prop := ∃ A, s.SoundAt A (fun _ => False) p

theorem KState.SettledAt.settled (h : s.SettledAt p) : s.Settled := h.imp fun _ h => h.1

theorem SettledAt.of_activity {x : Kernel α} (hx : KeepsActivity x) :
    Preserves (KState.SettledAt p) x := by
  rintro s r t ⟨A, hs⟩ hrun
  refine ⟨A, ?_⟩
  exact Preserves.of_keeps (J := fun a : Activity => a.Sound A (fun _ => False) ∧
    (a.tcb p).state ≠ .zero) hx s r t hs hrun

/-- A change of the ids or the scheduler of an initialised thread. -/
theorem preservesSettledAt_modIdent {f : Tcb → Tcb}
    (h : ∀ c, (f c).activity = { c.activity with ident := (f c).ident } ∧
      (f c).utcb = c.utcb ∧ (f c).space = c.space) :
    Preserves (KState.SettledAt p) (modTcb p f) := by
  rintro s r t ⟨A, hs⟩ hrun
  exact ⟨A, preservesSoundAt_modIdent h s r t hs hrun⟩

/-- An initialised thread is put to rest. -/
theorem preservesSettledAt_rest {st : ThreadState} (hst : st = .aborted ∨ st = .halted) :
    Preserves (KState.SettledAt p) (setState p st) := by
  rintro s r t ⟨A, hs⟩ hrun
  cases hrun
  have hzero : st ≠ .zero := by
    rcases hst with rfl | rfl <;> decide
  have hc := hs.1.tcb p
  refine ⟨A, hs.1.setTcb .rfl rfl ?_ fun hz => absurd hz hzero, ?_⟩
  · refine ⟨.inr (.inr hst), fun hz => absurd hz hzero, ?_, ?_, hc.frames⟩
    · rcases hst with rfl | rfl <;> exact nofun
    · exact ⟨hc.saved.1, fun hz => absurd (hc.saved.2 hz) hs.2⟩
  · change (Function.update s.tcb p _ p).state ≠ .zero
    rw [Function.update_self]
    exact hzero

/-- The TCB of a thread that is initialised. -/
theorem KState.Sound.initTcb {c : Tcb} (h : s.SoundAfter A) (hp : ¬A p)
    (hstate : c.state = .aborted) (hsaved : c.savedState = .aborted)
    (hwake : c.queueState.wakeup = false) (hframes : ∀ f ∈ c.stack, f.Fits c.space) :
    KState.SoundAt (Function.update A p c.ident.Activated) (fun _ => False) p
      { s with tcb := Function.update s.tcb p c } := by
  have hold : (s.tcb p).queueState.wakeup = false :=
    Bool.eq_false_iff.mpr fun hw => hp (h.of_wakeup hw)
  have hne : c.state ≠ .zero := by
    rw [hstate]
    exact nofun
  refine ⟨h.replaceTcb (fun hA => absurd hA hp) (hwake.trans hold.symm) ?_
    fun hz => absurd hz hne, ?_⟩
  · refine ⟨.inr (.inr (.inl hstate)), fun hz => absurd hz hne, ?_, ?_, hframes⟩
    · change c.state ≠ _
      rw [hstate]
      exact nofun
    · change c.savedState ≠ _ ∧ (c.savedState = _ → _)
      rw [hsaved]
      exact ⟨nofun, nofun⟩
  · change (Function.update s.tcb p c p).state ≠ .zero
    rw [Function.update_self]
    exact hne

theorem wp_threadControlInterrupt_settled {irqTid handlerTid : ThreadId} (h : s.SoundAfter A) :
    wp (fun _ => True) (threadControlInterrupt irqTid handlerTid) (fun _ t => t.Settled) s := by
  have hrest : Preserves (KState.SettledAt (getTcb irqTid)) (do
      setScheduler (getTcb irqTid) handlerTid
      if irqTid = handlerTid then
        setIntMask irqTid.getIrqno false
        setState (getTcb irqTid) .aborted
      else
        setState (getTcb irqTid) .halted
        setIntMask irqTid.getIrqno true
      pure true) := by
    refine .bind (preservesSettledAt_modIdent fun _ => ⟨rfl, rfl, rfl⟩) fun _ => ?_
    dsimp only
    split
    · refine .bind (SettledAt.of_activity keepsActivity_setIntMask) fun _ => ?_
      exact .bind (preservesSettledAt_rest (.inl rfl)) fun _ => .pure _
    · refine .bind (preservesSettledAt_rest (.inr rfl)) fun _ => ?_
      exact .bind (SettledAt.of_activity keepsActivity_setIntMask) fun _ => .pure _
  simp only [threadControlInterrupt]
  split
  · exact ⟨A, h⟩
  · simp only [wp_bind, wp_readTcb]
    split
    · exact ⟨A, h⟩
    · split
      · rename_i hinactive
        have hp : ¬A (getTcb irqTid) := by
          intro hA
          have hutcb : (s.tcb (getTcb irqTid)).isActivated = true := ((h.activated _).mpr hA).1
          rw [hutcb] at hinactive
          cases hinactive
        simp only [createKernelThread, setPriority, notify, pushFrame, wp_bind, wp_init, wp_modTcb,
          Function.update_self, Function.update_idem]
        refine hrest.wp ⟨_, h.initTcb hp rfl rfl rfl fun f hf => ?_⟩ fun _ _ ht => ht.settled
        obtain rfl := List.mem_singleton.mp hf
        rfl
      · rename_i hactive
        have hs : s.SettledAt (getTcb irqTid) := by
          refine ⟨A, h, fun hz => hactive ?_⟩
          have hutcb : (s.tcb (getTcb irqTid)).utcb = none := ((h.tcb _).unused hz).1
          simp only [Tcb.isActivated, hutcb]
          rfl
        split
        · rw [wp_bind]
          refine (SettledAt.of_activity keepsActivity_dequeueSend).wp hs fun _ _ hr => ?_
          exact hrest.wp hr fun _ _ ht => ht.settled
        · exact hrest.wp hs fun _ _ ht => ht.settled

/-- Migration stops without a UTCB, so that the thread is activated before and after it. -/
theorem wp_migrateToSpace_settled {o : Option SpacePtr} (h : s.SoundAfter A)
    (hspace : (s.tcb p).space.isSome) :
    wp (fun _ => True) (migrateToSpace p o) (fun _ t => t.SettledAt p) s := by
  rw [wp_iff_ok]
  intro _ t ht
  obtain ⟨hutcb, ho⟩ := wp_iff_ok.mp wp_migrateToSpace_pre _ t ht
  have hp : A p := (h.activated p).mp ⟨hutcb, hspace⟩
  have hmig : Preserves (fun s => s.SoundAfter A) (migrateToSpace p o) := by
    unfold migrateToSpace setSpace
    refine .bind (.gets _) fun c => .bind keepsActivity_allocateUtcb.preserves fun u => ?_
    refine .bind (preservesSound_unwind hp) fun _ => .bind (.gets _) fun old => ?_
    refine .bind keepsActivity_removeTcb.preserves fun last => ?_
    have hset : Preserves (fun s => s.SoundAfter A) (do
        modTcb p fun c => { c with space := o }
        modTcb p fun c => { c with utcb := some u }) := by
      refine .bind ?_ fun _ => ?_
      · refine preservesSound_modTcb hp fun c hc ha => ?_
        exact ⟨⟨ha.1, ho⟩, rfl, (hc.used_state ha).1, hc.setIdent ha ⟨ha.1, ho⟩⟩
      · refine preservesSound_modTcb hp fun c hc ha => ?_
        exact ⟨⟨rfl, ha.2⟩, rfl, (hc.used_state ha).1, hc.setIdent ha ⟨rfl, ha.2⟩⟩
    dsimp only
    split
    · refine .bind (KeepsActivity.preserves keeps_derefSpace) fun _ => ?_
      refine .bind keepsActivity_unmapSpace.preserves fun _ => ?_
      refine .bind (KeepsActivity.preserves keeps_derefSpace) fun _ => ?_
      exact .bind keepsActivity_freeSpace.preserves fun _ => hset
    · exact hset
  have hsound := hmig s _ t h ht
  exact ⟨A, hsound, hsound.initialised hp⟩

theorem preservesSettledAt_setUtcbLocation {loc : Word} :
    Preserves (KState.SettledAt p) (setUtcbLocation p loc) :=
  preservesSettledAt_modIdent fun _ => ⟨rfl, rfl, rfl⟩

theorem preservesSettledAt_setScheduler {tid : ThreadId} :
    Preserves (KState.SettledAt p) (setScheduler p tid) :=
  preservesSettledAt_modIdent fun _ => ⟨rfl, rfl, rfl⟩

theorem preservesSettledAt_setGlobalId {tid : ThreadId} :
    Preserves (KState.SettledAt p) (setGlobalId p tid) :=
  .bind (preservesSettledAt_modIdent fun _ => ⟨rfl, rfl, rfl⟩) fun _ =>
    SettledAt.of_activity keepsActivity_modUtcb

theorem preservesSettledAt_startThread {pager : ThreadId} :
    Preserves (KState.SettledAt p) (startThread p pager) := by
  rintro s r t ⟨A, hs⟩ hrun
  exact leads_startThread s r t hs hrun

theorem keepsActivity_checkUtcbLocation {loc : Word} :
    KeepsActivity (checkUtcbLocation p loc) := by
  unfold checkUtcbLocation
  grind

theorem keepsActivity_failWith {err : Word} : KeepsActivity (failWith err) := by
  unfold failWith setErrorCode
  exact .bind (.gets _) fun _ => .bind keepsActivity_modUtcb fun _ => .pure _

theorem preservesSettledAt_modifyPager :
    Preserves (KState.SettledAt p) (modifyPager p a) := by
  unfold modifyPager setPager
  split
  · exact .pure _
  · refine .bind (.gets _) fun c => ?_
    split
    · exact .bind (SettledAt.of_activity keepsActivity_modUtcb) fun _ => .pure _
    · refine .bind (SettledAt.of_activity keepsActivity_checkUtcbLocation) fun b => ?_
      split
      · exact .bind preservesSettledAt_startThread fun _ => .pure _
      · exact .pure _

theorem preservesSettledAt_modifySettings :
    Preserves (KState.SettledAt p) (modifySettings p a) := by
  have hid : Preserves (KState.SettledAt p) (do
      if (← readTcb p).myselfGlobal ≠ a.destTid then setGlobalId p a.destTid
      pure true) := by
    refine .bind (.gets _) fun c => ?_
    dsimp only
    split
    · exact .bind preservesSettledAt_setGlobalId fun _ => .pure _
    · exact .pure _
  unfold modifySettings
  refine .bind preservesSettledAt_modifyPager fun err => ?_
  cases err with
  | some err => exact SettledAt.of_activity keepsActivity_failWith
  | none =>
    dsimp only
    split
    · exact .bind preservesSettledAt_setScheduler fun _ => hid
    · exact hid

theorem wp_modifyThread_settled {o : Option SpacePtr} (h : s.SettledAt p)
    (hspace : (s.tcb p).space.isSome) :
    wp (fun _ => True) (modifyThread p a o) (fun _ t => t.SettledAt p) s := by
  rw [modifyThread, wp_bind, wp_readTcb]
  dsimp only
  split
  · obtain ⟨A, hs⟩ := h
    rw [wp_bind]
    refine wp_mono (wp_migrateToSpace_settled hs.1 hspace) fun _ r hr => ?_
    exact preservesSettledAt_modifySettings.wp hr fun _ _ ht => ht
  · exact preservesSettledAt_modifySettings.wp h fun _ _ ht => ht

theorem wp_modifyUtcbLocation_settled {loc : Word} (h : s.SettledAt p)
    (hspace : (s.tcb p).space.isSome) :
    wp (fun _ => True) (modifyUtcbLocation p loc)
      (fun _ t => t.SettledAt p ∧ (t.tcb p).space.isSome) s := by
  have hloc : Preserves (fun s => s.SettledAt p ∧ (s.tcb p).space.isSome)
      (setUtcbLocation p loc) := by
    rintro s r t ⟨hs, hsp⟩ hrun
    refine ⟨preservesSettledAt_setUtcbLocation s r t hs hrun, ?_⟩
    cases hrun
    simpa using hsp
  have hcheck : Preserves (fun s => s.SettledAt p ∧ (s.tcb p).space.isSome)
      (checkUtcbLocation p loc) :=
    .of_wp fun s hs => wp_checkUtcbLocation.mpr ⟨fun _ => trivial, fun _ _ => hs⟩
  refine Preserves.wp ?_ ⟨h, hspace⟩ fun _ _ ht => ht
  unfold modifyUtcbLocation
  split
  · exact .pure _
  · refine .bind (.gets _) fun c => ?_
    split
    · exact .pure _
    · refine .bind hcheck fun b => ?_
      split
      · exact .bind hloc fun _ => .pure _
      · exact .pure _

/-- Modification of an existing thread. -/
theorem wp_threadModify_settled (h : s.SettledAt p) (hspace : (s.tcb p).space.isSome) :
    wp (fun _ => True) (threadModify p a) (fun _ t => t.Settled) s := by
  rw [threadModify, wp_bind]
  refine wp_mono (wp_modifyUtcbLocation_settled h hspace) fun b r hpost => ?_
  obtain ⟨hr, hsp⟩ := hpost
  split
  · rw [wp_bind, wp_readTcb]
    split
    · exact preservesSettled_failWith.wp hr.settled fun _ _ ht => ht
    · exact wp_mono (wp_modifyThread_settled hr hsp) fun _ _ ht => ht.settled
  · exact preservesSettled_failWith.wp hr.settled fun _ _ ht => ht

/-! ### Creation -/

/-- A new thread, not yet in a space. -/
def KState.Fresh (p : TcbPtr) (s : KState) : Prop :=
  ∃ A, s.SoundAfter A ∧ ¬A p ∧ (s.tcb p).utcb = none ∧ (s.tcb p).state = .aborted ∧
    (s.tcb p).savedState = .aborted ∧ (s.tcb p).stack = []

theorem Fresh.of_activity {x : Kernel α} (hx : KeepsActivity x) :
    Preserves (KState.Fresh p) x := by
  rintro s r t ⟨A, hs, hA, hutcb, hstate, hsaved, hstack⟩ hrun
  have hp : (t.tcb p).activity = (s.tcb p).activity :=
    congrFun (congrArg Activity.tcb (hx s r t hrun)) p
  refine ⟨A, hx.preserves s r t hs hrun, hA, ?_, ?_, ?_, ?_⟩
  · exact (congrArg (fun a : TcbActivity => a.ident.utcb) hp).trans hutcb
  · exact (congrArg TcbActivity.state hp).trans hstate
  · exact (congrArg TcbActivity.savedState hp).trans hsaved
  · exact (congrArg TcbActivity.stack hp).trans hstack

theorem KState.Sound.fresh {c : Tcb} (h : s.SoundAfter A) (hp : ¬A p) (hutcb : c.utcb = none)
    (hstate : c.state = .aborted) (hsaved : c.savedState = .aborted) (hstack : c.stack = [])
    (hwake : c.queueState.wakeup = false) :
    KState.Fresh p { s with tcb := Function.update s.tcb p c } := by
  refine ⟨_, (h.initTcb hp hstate hsaved hwake ?_).1, ?_, ?_⟩
  · rw [hstack]
    exact List.forall_mem_nil _
  · rw [Function.update_self]
    intro hact
    have hsome : c.utcb.isSome = true := hact.1
    rw [hutcb] at hsome
    cases hsome
  · simp only [Function.update_self]
    exact ⟨hutcb, hstate, hsaved, hstack⟩

/-- The new thread gets an id, a scheduler or a space. -/
theorem preservesFresh_modTcb {f : Tcb → Tcb}
    (h : ∀ c, (f c).activity = { c.activity with ident := (f c).ident } ∧ (f c).utcb = c.utcb) :
    Preserves (KState.Fresh p) (modTcb p f) := by
  refine .modify fun s ⟨A, hs, hA, hutcb, hstate, hsaved, hstack⟩ => ?_
  obtain ⟨hact, hf⟩ := h (s.tcb p)
  refine hs.fresh hA (hf.trans hutcb) ?_ ?_ ?_ ?_
  · exact (congrArg TcbActivity.state hact).trans hstate
  · exact (congrArg TcbActivity.savedState hact).trans hsaved
  · exact (congrArg TcbActivity.stack hact).trans hstack
  · refine (congrArg TcbActivity.wakeup hact).trans ?_
    exact Bool.eq_false_iff.mpr fun hw => hA (hs.of_wakeup hw)

theorem KState.Fresh.settledAt (h : s.Fresh p) : s.SettledAt p := by
  obtain ⟨A, hs, -, -, hstate, -⟩ := h
  refine ⟨A, hs, ?_⟩
  rw [hstate]
  exact nofun

theorem wp_createInactive_fresh {tid sched : ThreadId} (h : s.SoundAfter A) (hp : ¬A p) :
    wp (fun _ => True) (createInactive p tid sched) (fun _ t => t.Fresh p) s := by
  simp only [createInactive, wp_bind, wp_init, wp_modTcb, Function.update_self,
    Function.update_idem]
  exact h.fresh hp rfl rfl rfl rfl rfl

theorem keepsActivity_newThreadSpace : KeepsActivity (newThreadSpace a) := by
  unfold newThreadSpace
  split
  · exact .bind (.gets _) fun _ => .pure _
  · exact .bind keepsActivity_allocateSpace fun _ => .pure _

/-- A thread without a space is not activated. -/
theorem KState.Sound.not_activated (h : s.Sound A C) (hp : (s.tcb p).isExisting = false) :
    ¬A p := by
  intro hA
  have hspace : (s.tcb p).isExisting = true := ((h.activated p).mpr hA).2
  rw [hp] at hspace
  cases hspace

theorem wp_createThread_settled (h : s.SoundAfter A) (hp : (s.tcb p).isExisting = false) :
    wp (fun _ => True) (createThread p a) (fun _ t => t.Settled) s := by
  -- The activation of the thread in its space.
  have hstart : ∀ {u : KState}, u.Fresh p → wp (fun _ => True) (do
      if !a.pagerTid.isNilthread then startThread p a.pagerTid) (fun _ t => t.Settled) u := by
    intro u hu
    split
    · exact preservesSettledAt_startThread.wp hu.settledAt fun _ _ ht => ht.settled
    · exact hu.settledAt.settled
  have hspace : ∀ {u : KState}, u.Fresh p → wp (fun _ => True) (do
      let space ← newThreadSpace a
      setSpace p space
      addTcb space
      if !a.pagerTid.isNilthread then startThread p a.pagerTid) (fun _ t => t.Settled) u := by
    intro u hu
    rw [wp_bind]
    refine (Fresh.of_activity keepsActivity_newThreadSpace).wp hu fun o v hv => ?_
    rw [wp_bind]
    have hset : Preserves (KState.Fresh p) (setSpace p o) :=
      preservesFresh_modTcb fun _ => ⟨rfl, rfl⟩
    refine hset.wp hv fun _ w hw => ?_
    rw [wp_bind]
    exact (Fresh.of_activity keepsActivity_addTcb).wp hw fun _ _ hx => hstart hx
  have hloc : Preserves (KState.Fresh p) (setUtcbLocation p a.utcbLocation) :=
    preservesFresh_modTcb fun _ => ⟨rfl, rfl⟩
  rw [createThread, wp_bind]
  refine wp_mono (wp_createInactive_fresh h (h.not_activated hp)) fun _ r hr => ?_
  dsimp only
  split
  · rw [wp_bind]
    exact hloc.wp hr fun _ _ hu => hspace hu
  · exact hspace hr

theorem wp_threadCreate_settled (h : s.SoundAfter A) (hp : (s.tcb p).isExisting = false) :
    wp (fun _ => True) (threadCreate p a) (fun _ t => t.Settled) s := by
  rw [threadCreate, wp_bind]
  refine wp_createCheck fun o => ?_
  cases o with
  | some err => exact preservesSettled_failWith.wp ⟨A, h⟩ fun _ _ ht => ht
  | none =>
    rw [wp_bind]
    exact wp_mono (wp_createThread_settled h hp) fun _ _ ht => ht

/-- `SYS_THREAD_CONTROL`, when a thread that is deleted is quiet. -/
theorem wp_sysThreadControl_settled (h : s.Settled)
    (hquiet : a.spaceTid.isNilthread → s.Quiet (getTcb a.destTid)) :
    wp (fun _ => True) (sysThreadControl a) (fun _ t => t.Settled) s := by
  obtain ⟨A, hs⟩ := h
  have hfail : ∀ {err : Word} {u : KState}, u.Settled →
      wp (fun _ => True) (failWith err) (fun _ t => t.Settled) u :=
    fun hu => preservesSettled_failWith.wp hu fun _ _ ht => ht
  rw [wp_sysThreadControl]
  split
  · exact hfail ⟨A, hs⟩
  split
  · exact hfail ⟨A, hs⟩
  split
  · refine wp_mono (wp_threadControlInterrupt_settled hs) fun b r hr => ?_
    split
    · exact hr
    · exact hfail hr
  split
  · exact hfail ⟨A, hs⟩
  split
  · rename_i hnil
    exact wp_threadDelete_settled hs nofun (hquiet hnil)
  split
  · rename_i hex
    exact wp_threadModify_settled ⟨A, hs, hs.initialised_of_space hex⟩ hex
  · rename_i hex
    exact wp_threadCreate_settled hs (by simpa using hex)

theorem keepsActivity_initSpace {sp : SpacePtr} {utcbArea kipArea : Fpage} :
    KeepsActivity (initSpace sp utcbArea kipArea) := by
  unfold initSpace
  exact keepsActivity_modSpace

theorem keepsActivity_isPrivilegedSpace {sp : Option SpacePtr} :
    KeepsActivity (isPrivilegedSpace sp) := by
  unfold isPrivilegedSpace isSigma0Space isSigma1Space isRoottaskSpace
  grind

theorem keepsActivity_sysSpaceControl {b : SpaceControlArgs} :
    KeepsActivity (sysSpaceControl b) := by
  have hfail : ∀ {err : Word}, KeepsActivity (failWith err) := keepsActivity_failWith
  unfold sysSpaceControl
  refine .bind (.bind (.gets _) fun _ => .bind (.gets _) fun _ => .pure _) fun o => ?_
  refine .bind keepsActivity_isPrivilegedSpace fun priv => ?_
  split
  · exact hfail
  split
  · exact hfail
  refine .bind (.gets _) fun c => ?_
  split
  · exact hfail
  refine .bind keeps_derefSpace fun ptr => .bind (.gets _) fun sp => ?_
  split
  · exact .pure _
  split
  · exact hfail
  split
  · exact hfail
  · exact .bind keepsActivity_initSpace fun _ => .pure _

end Control

/-! ## Boot -/

section Boot

variable {cfg : BootConfig} {tid sched pager : ThreadId} {tids : List ThreadId}

theorem keepsActivity_initKernelSpace : KeepsActivity initKernelSpace := by
  unfold initKernelSpace
  refine .bind keepsActivity_allocateSpace fun _ => .bind (.gets _) fun k => ?_
  split
  · exact .trap _
  · exact keepsActivity_modKmem

/-- A TCB at rest. -/
theorem TcbActivity.Sound.resting_tcb {a : TcbActivity} (hstate : a.state = .aborted)
    (hsaved : a.savedState = .aborted) (hstack : a.stack = []) : a.Sound := by
  refine ⟨.inr (.inr (.inl hstate)), fun hz => ?_, ?_, ?_, fun f hf => ?_⟩
  · rw [hstate] at hz
    cases hz
  · rw [hstate]
    exact nofun
  · rw [hsaved]
    exact ⟨nofun, nofun⟩
  · rw [hstack] at hf
    cases hf

theorem Tcb.sound_zero : Tcb.zero.activity.Sound :=
  ⟨.inr (.inl rfl), fun _ => ⟨rfl, rfl, rfl, rfl⟩, nofun, ⟨nofun, fun _ => rfl⟩,
    List.forall_mem_nil _⟩

/-- Only the idle thread is activated at first. -/
theorem Activity.sound_idle {a : Activity} (hlinks : ∀ q, a.readyList q = ⟨none, none⟩)
    (hheads : ∀ n, a.prioQueue n = none) (hwait : a.wakeupList = none)
    (hcur : a.currentTcb = .idle) (hother : ∀ q ≠ TcbPtr.idle, a.tcb q = Tcb.zero.activity)
    (hact : (a.tcb .idle).ident.Activated) (hidle : (a.tcb .idle).Sound)
    (hwake : (a.tcb .idle).wakeup = false) : a.Sound (· = .idle) (fun _ => False) := by
  have hclear : ∀ q, (a.tcb q).wakeup = false := by
    intro q
    rcases eq_or_ne q .idle with rfl | hq
    · exact hwake
    · rw [hother q hq]
      rfl
  refine ⟨fun q => ?_, fun q => ?_, hcur, rfl, fun x y hy => ?_, fun n q hq => ?_,
    ⟨[], ⟨hwait, .nil⟩, fun q => ?_⟩, fun q hq => ?_, nofun⟩
  · rcases eq_or_ne q .idle with rfl | hq
    · exact iff_of_true hact rfl
    · refine iff_of_false (fun hact => ?_) hq
      rw [hother q hq] at hact
      cases hact.1
  · rcases eq_or_ne q .idle with rfl | hq
    · exact hidle
    · rw [hother q hq]
      exact Tcb.sound_zero
  · rw [hlinks x] at hy
    simp at hy
  · rw [hheads n] at hq
    cases hq
  · exact iff_of_false nofun (by simp [hclear q])
  · rw [hclear q] at hq
    cases hq

theorem wp_initScheduler_settled (h : s.activity = (KState.zero cfg).activity) :
    wp (fun _ => True) initScheduler (fun _ t => t.Settled) s := by
  simp only [initScheduler, createKernelThread, setPriority, setSpace, wp_bind, wp_init, wp_modTcb,
    Function.update_self, Function.update_idem]
  refine ⟨_, Activity.sound_idle (congrFun (congrArg Activity.readyList h))
    (congrFun (congrArg Activity.prioQueue h)) (congrArg Activity.wakeupList h)
    (congrArg Activity.currentTcb h) (fun q hq => ?_) ?_ ?_ ?_⟩
  all_goals simp only [KState.activity]
  · rw [Function.update_of_ne hq]
    exact congrFun (congrArg Activity.tcb h) q
  all_goals rw [Function.update_self]
  · exact ⟨rfl, rfl⟩
  · exact .resting_tcb rfl rfl rfl
  · rfl

theorem wp_initKernelThreads_settled (h : s.Settled)
    (hp : (s.tcb (getTcb kernelTid)).isExisting = false) :
    wp (fun _ => True) initKernelThreads (fun _ t => t.Settled) s := by
  obtain ⟨A, hs⟩ := h
  simp only [initKernelThreads, createKernelThread, setPriority, wp_bind, wp_init, wp_modTcb,
    Function.update_self, Function.update_idem]
  exact (preservesSettledAt_rest (.inl rfl)).wp
    ⟨_, hs.initTcb (hs.not_activated hp) rfl rfl rfl
      (List.forall_mem_nil _)⟩ fun _ _ ht => ht.settled

theorem wp_createRootServer_settled (h : s.Settled) (hp : (s.tcb (getTcb tid)).isExisting = false) :
    wp (fun _ => True) (createRootServer tid sched pager cfg) (fun _ t => t.Settled) s := by
  obtain ⟨A, hs⟩ := h
  have hA : ¬A (getTcb tid) := hs.not_activated hp
  have hset : ∀ {o : Option SpacePtr}, Preserves (KState.Fresh (getTcb tid))
      (setSpace (getTcb tid) o) := preservesFresh_modTcb fun _ => ⟨rfl, rfl⟩
  have hloc : Preserves (KState.Fresh (getTcb tid)) (setUtcbLocation (getTcb tid) rootUtcbStart) :=
    preservesFresh_modTcb fun _ => ⟨rfl, rfl⟩
  rw [createRootServer, wp_bind]
  refine keepsActivity_allocateSpace.preserves.wp hs fun sp t1 h1 => ?_
  rw [wp_bind]
  refine wp_mono (wp_createInactive_fresh h1 hA) fun _ t2 h2 => ?_
  rw [wp_bind]
  refine (Fresh.of_activity keepsActivity_initSpace).wp h2 fun _ t3 h3 => ?_
  rw [wp_bind]
  refine hset.wp h3 fun _ t4 h4 => ?_
  rw [wp_bind]
  refine (Fresh.of_activity keepsActivity_addTcb).wp h4 fun _ t5 h5 => ?_
  rw [wp_bind]
  refine hloc.wp h5 fun _ t6 h6 => ?_
  obtain ⟨A', h6⟩ := h6.settledAt
  rw [wp_bind, wp_iff_ok]
  intro _ t7 h7
  have hfits : ∀ space, (Frame.notify .threadReturn).Fits space := fun _ => trivial
  obtain ⟨A'', h7, hp7⟩ := leads_activate hfits t6 _ t7 h6 h7
  have hstart : Preserves (fun s => s.SoundAfter A'') (do
      startRootServer (getTcb tid) cfg
      pure sp) := by
    unfold startRootServer setPriority
    refine .bind ?_ fun _ => .pure _
    refine .bind (preservesSound_setState hp7 (by decide)) fun _ => ?_
    refine .bind (preservesSound_of_eq fun _ => rfl) fun _ => ?_
    refine .bind (preservesSound_enqueueReady hp7) fun _ => ?_
    exact preservesSound_of_eq fun _ => rfl
  exact hstart.wp h7 fun _ t ht => ⟨A'', ht⟩

theorem settled_boot (h : s.Booted) : s.Settled := by
  obtain ⟨cfg, h⟩ := h
  have hzero : RootTable [] (KState.zero cfg) :=
    ⟨fun _ hex => absurd hex (by simp [KState.zero, Tcb.zero, Tcb.isExisting]), by simp⟩
  have hnot : ∀ {tids : List ThreadId} {u : KState} {tid : ThreadId}, RootTable tids u →
      (∀ tid' ∈ tids, getTcb tid' ≠ getTcb tid) → (u.tcb (getTcb tid)).isExisting = false := by
    intro tids u tid hu hne
    rw [Bool.eq_false_iff]
    intro hex
    obtain ⟨tid', htid', heq⟩ := hu.only (p := getTcb tid) (by cases ·) hex
    exact hne tid' htid' heq.symm
  have hroots : ∀ {u : KState}, RootTable [] u ∧ u.Settled →
      wp (fun _ => True) (initRootServers cfg) (fun _ t => t.Settled) u := by
    intro u hu
    refine wp_mono (wp_initRootServers (I := fun tids t => RootTable tids t ∧ t.Settled) ?_ ?_ hu)
      fun _ t hpost => ?_
    · intro tids tid pager v htid hnin htids hinv
      obtain ⟨htab, hv⟩ := hinv
      have hne : ∀ tid' ∈ tids, getTcb tid' ≠ getTcb tid := by
        intro tid' htid'
        refine getTcb_rootTids_injective (htids _ htid') htid ?_
        rintro rfl
        exact hnin htid'
      rw [wp_iff_ok]
      intro sp t ht
      exact ⟨wp_iff_ok.mp (htab.create hne) sp t ht,
        wp_iff_ok.mp (wp_createRootServer_settled hv (hnot htab hne)) sp t ht⟩
    · exact fun tids v _ _ _ hinv => ⟨hinv.1.congr rfl, hinv.2⟩
    · obtain ⟨_, ht, _⟩ := hpost
      exact ht.2
  suffices wp (fun _ => True) (boot cfg) (fun _ t => t.Settled) (KState.zero cfg) from
    wp_iff_ok.mp this () s h
  rw [boot, wp_bind, wp_iff_ok]
  intro _ t1 h1
  have htab1 := hzero.congr (keepsTcbIdent_initKernelSpace _ _ t1 h1)
  rw [wp_bind, wp_iff_ok]
  intro _ t2 h2
  have hset2 := wp_iff_ok.mp
    (wp_initScheduler_settled (keepsActivity_initKernelSpace _ _ t1 h1)) _ t2 h2
  have htab2 := wp_iff_ok.mp htab1.initScheduler _ t2 h2
  rw [wp_bind, wp_iff_ok]
  intro _ t3 h3
  have hset3 := wp_iff_ok.mp
    (wp_initKernelThreads_settled hset2 (hnot htab2 (by simp))) _ t3 h3
  exact hroots ⟨wp_iff_ok.mp htab2.initKernelThreads _ t3 h3, hset3⟩

end Boot

/-! ## Runs -/

instance {A : TcbPtr → Prop} [DecidablePred A] {f : Frame} : Decidable (f.Reaches A) := by
  cases f <;> unfold Frame.Reaches <;> infer_instance

/-- The steps that leave no thread in the wakeup queue that is not activated any more: a thread that
is deleted is in it only if it is polling or waiting, a thread that gets a timeout is not in it yet,
and the receiver a suspended IPC goes on with is still activated. Device interrupts run threads that
are in no space. -/
def ActivationSteps (s : KState) : Event → Prop
  | .threadControl a => a.spaceTid.isNilthread → s.Quiet (getTcb a.destTid)
  | .ipc _ _ timeout =>
    timeout.getSnd.IsFinite ∨ timeout.getRcv.IsFinite → s.current.queueState.wakeup = false
  | .pagefault _ _ _ | .copyFault _ _ _ =>
    s.current.hasXferTimeout = false → s.current.queueState.wakeup = false
  | .resume => ∀ f ∈ s.current.stack.head?, f.Reaches fun p => (s.tcb p).ident.Activated
  | .interrupt _ => False
  | _ => True

instance (s : KState) (e : Event) : Decidable (ActivationSteps s e) :=
  match e with
  | .threadControl a =>
    inferInstanceAs (Decidable (a.spaceTid.isNilthread → s.Quiet (getTcb a.destTid)))
  | .ipc _ _ timeout =>
    inferInstanceAs (Decidable (timeout.getSnd.IsFinite ∨ timeout.getRcv.IsFinite →
      s.current.queueState.wakeup = false))
  | .pagefault _ _ _ | .copyFault _ _ _ =>
    inferInstanceAs (Decidable (s.current.hasXferTimeout = false →
      s.current.queueState.wakeup = false))
  | .resume =>
    inferInstanceAs (Decidable (∀ f ∈ s.current.stack.head?,
      f.Reaches fun p => (s.tcb p).ident.Activated))
  | .interrupt _ => isFalse not_false
  | .spaceControl _ | .exchangeRegisters _ | .schedule _ _ _ _ | .threadSwitch _
  | .writeUtcb _ _ | .timer | .idle => isTrue trivial

theorem settled_step {e : Event} (h : s.Settled) (hok : ActivationSteps s e) (hs : s.Step e t) :
    t.Settled := by
  obtain ⟨-, hrun⟩ := KState.step_iff.mp hs
  have hend : ∀ {x : Kernel Unit}, wp (fun _ => True) x (fun _ t => t.Settled) s →
      x s = .ok ((), t) → t.Settled := fun hx hrun => wp_iff_ok.mp hx () t hrun
  have hpreserves : ∀ {x : Kernel Unit}, Preserves KState.Settled x →
      wp (fun _ => True) x (fun _ t => t.Settled) s := fun hx => hx.wp h fun _ _ ht => ht
  obtain ⟨A, hA⟩ := h
  -- A thread that is not in the wakeup queue.
  have hclear : ∀ {P : Prop}, (P → s.current.queueState.wakeup = false) →
      ∃ C : TcbPtr → Prop, s.Sound A C ∧ (P → C s.currentTcb) := by
    intro P hP
    by_cases h : P
    · exact ⟨_, hA.recall (hP h), fun _ => .inr rfl⟩
    · exact ⟨_, hA, fun hp => absurd hp h⟩
  refine hend ?_ hrun
  cases e with
  | threadControl a =>
    rw [runEvent, wp_bind]
    exact wp_mono (wp_sysThreadControl_settled ⟨A, hA⟩ hok) fun _ _ ht => ht
  | spaceControl a =>
    refine hpreserves (.bind ?_ fun _ => .pure _)
    exact KState.Settled.of_activity keepsActivity_sysSpaceControl
  | exchangeRegisters a =>
    rw [runEvent, wp_bind]
    exact preservesSound_sysExchangeRegisters.wp hA fun _ _ ht => ⟨A, ht⟩
  | schedule dest timeControl prio preemptionControl =>
    rw [runEvent, wp_bind]
    exact preservesSound_sysSchedule.wp hA fun _ _ ht => ⟨A, ht⟩
  | threadSwitch dest => exact preservesSound_sysThreadSwitch.wp hA fun _ _ ht => ⟨A, ht⟩
  | ipc toTid fromTid timeout =>
    obtain ⟨C, hC, hp⟩ := hclear hok
    rw [wp_iff_ok]
    exact fun a u hu => ⟨A, leads_sysIpc hp s a u ⟨hC, rfl⟩ hu⟩
  | pagefault addr ip access =>
    obtain ⟨C, hC, hp⟩ := hclear hok
    exact wp_mono (wp_handlePagefault_sound hC hp) fun _ _ ht => ⟨A, ht⟩
  | copyFault addr ip access =>
    obtain ⟨C, hC, hp⟩ := hclear hok
    exact wp_mono (wp_handlePagefault_sound hC hp) fun _ _ ht => ⟨A, ht⟩
  | writeUtcb addr u => exact ⟨A, hA⟩
  | timer => exact preservesSound_handleTimerInterrupt.wp hA fun _ _ ht => ⟨A, ht⟩
  | interrupt irq => exact hok.elim
  | resume =>
    refine wp_mono (wp_resume_sound hA fun f hf => ?_) fun _ _ ht => ⟨A, ht⟩
    have hreach := hok f hf
    have hiff : (fun p => (s.tcb p).ident.Activated) = A := by
      funext p
      exact propext (hA.activated p)
    rwa [hiff] at hreach
  | idle =>
    rw [runEvent, wp_bind]
    exact (preservesSound_schedule hA.idle).wp hA fun _ _ ht => ⟨A, ht⟩

/-- The current thread is the idle thread or exists and is activated, and so is every runnable
thread. -/
def KState.RunsActivated (s : KState) : Prop :=
  (s.currentTcb = .idle ∨ s.current.isExisting ∧ s.current.isActivated) ∧
    ∀ p, (s.tcb p).state ≠ .zero → (s.tcb p).state.isRunnable →
      (s.tcb p).isActivated ∧ (s.tcb p).isExisting

theorem KState.Settled.runsActivated (h : s.Settled) : s.RunsActivated := by
  obtain ⟨A, h⟩ := h
  have hact : ∀ {p : TcbPtr}, A p → (s.tcb p).isActivated ∧ (s.tcb p).isExisting :=
    fun hp => (h.activated _).mpr hp
  refine ⟨.inr (hact h.current).symm, fun p hzero hrun => hact (h.of_state ?_)⟩
  rintro (hz | hz | hz)
  · exact hzero hz
  all_goals
    rw [hz] at hrun
    cases hrun

theorem reachable_runsActivated (h : Reachable ActivationSteps s) : s.RunsActivated := by
  have hsettled : s.Settled :=
    h.invariant (fun _ hs => settled_boot hs) fun _ _ _ hs hok hstep => settled_step hs hok hstep
  exact hsettled.runsActivated

/-- `sigma0` sends a message to a thread it has created, and the root server runs. -/
theorem exists_runsActivated : ∃ s, Reachable ActivationSteps s ∧
    s.currentTcb = getTcb (sampleTid 0) ∧ s.RunsActivated := by
  obtain ⟨s, hs, hP⟩ := exists_reachable ActivationSteps
    [.idle, .resume,
      .threadControl ⟨sampleTid 0, sigma0Tid, sigma0Tid, sigma0Tid, rootUtcbStart + 0x400⟩,
      .ipc (sampleTid 0) .nilthread .never, .threadSwitch (sampleTid 0), .resume]
    (fun s => decide (s.currentTcb = getTcb (sampleTid 0))) (by decide +kernel)
  exact ⟨s, hs, of_decide_eq_true hP, reachable_runsActivated hs⟩

/-- A message with a map item. -/
def mapMessage : Utcb :=
  { Utcb.zero with
    mr := fun i => if i = 0 then (MsgTag.tag 2 0 0).raw else if i = 1 then 8 else 0 }

/-- A thread that waits with a timeout gets a map item without a receive window. The transfer fails
and makes it running without taking it out of the wakeup queue; it is deleted, and the timer makes
it running again. -/
theorem exists_not_runsActivated : ∃ s, Reachable (fun _ _ => True) s ∧ ¬s.RunsActivated := by
  obtain ⟨s, hs, hP⟩ := exists_reachable (fun _ _ => True)
    [.idle, .resume,
      .threadControl ⟨sampleTid 0, sigma0Tid, sigma0Tid, sigma0Tid, rootUtcbStart + 0x400⟩,
      .ipc (sampleTid 0) .nilthread .never, .threadSwitch (sampleTid 0), .resume,
      .ipc .nilthread sigma0Tid ⟨1⟩, .idle, .writeUtcb 1073152 mapMessage,
      .ipc (sampleTid 0) .nilthread .never, .resume,
      .threadControl ⟨sampleTid 0, .nilthread, .nilthread, .nilthread, 0⟩, .timer]
    (fun s => decide ((s.tcb (getTcb (sampleTid 0))).state = .running ∧
      (s.tcb (getTcb (sampleTid 0))).isActivated = false)) (by decide +kernel)
  obtain ⟨hstate, hutcb⟩ := of_decide_eq_true hP
  refine ⟨s, hs, fun h => ?_⟩
  have hact := (h.2 (getTcb (sampleTid 0)) (by rw [hstate]; exact nofun) (by rw [hstate]; rfl)).1
  rw [hutcb] at hact
  cases hact

end L4Thread
