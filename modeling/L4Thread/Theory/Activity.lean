import L4Thread.Theory.Boot
import L4Thread.Theory.Unwind

/-!
# Activated threads

A thread is dispatched because it is in a ready queue, because its timeout has expired, or because
an IPC hands over to it; each of the dispatchers looks at the thread state only. The state of a
thread without a UTCB or a space is one in which it is not dispatched, as long as no such thread is
in the wakeup queue, from which every thread is made running.
-/

namespace L4Thread

open TrapM Kernel Ring

variable {s t : KState} {p q : TcbPtr} {A C : TcbPtr → Prop} {α : Type}

/-! ## The activity of threads -/

/-- The part of a TCB that says whether and how the thread runs. -/
structure TcbActivity where
  ident : TcbIdent
  state : ThreadState
  savedState : ThreadState
  stack : List Frame
  wakeup : Bool

@[grind] def Tcb.activity (c : Tcb) : TcbActivity :=
  ⟨c.ident, c.state, c.savedState, c.stack, c.queueState.wakeup⟩

/-- The part of the state the dispatchers look at. -/
structure Activity where
  tcb : TcbPtr → TcbActivity
  readyList : TcbPtr → Link TcbPtr
  prioQueue : Int → Option TcbPtr
  waitList : TcbPtr → Link TcbPtr
  wakeupList : Option TcbPtr
  currentTcb : TcbPtr

def KState.activity (s : KState) : Activity :=
  ⟨fun p => (s.tcb p).activity, s.readyList, s.prioQueue, s.waitList, s.wakeupList, s.currentTcb⟩

/-- The thread has a UTCB and a space. -/
def TcbIdent.Activated (i : TcbIdent) : Prop := i.utcb.isSome ∧ i.space.isSome

instance (i : TcbIdent) : Decidable i.Activated := inferInstanceAs (Decidable (_ ∧ _))

/-- A state an activated thread can be in. -/
def ThreadState.Used (st : ThreadState) : Prop := st ≠ .zero ∧ st ≠ .waitingTunneledPf

instance (st : ThreadState) : Decidable st.Used := inferInstanceAs (Decidable (_ ∧ _))

/-- A state in which a thread is left alone. -/
def ThreadState.Resting (st : ThreadState) : Prop := st = .zero ∨ st = .aborted ∨ st = .halted

instance (st : ThreadState) : Decidable st.Resting := inferInstanceAs (Decidable (_ ∨ _))

theorem ThreadState.not_resting {st : ThreadState} (h : st.isPolling ∨ st.isWaiting) :
    ¬st.Resting := by
  revert h
  cases st <;> decide

/-- A frame of a thread in `space`: interrupt threads are in no space. -/
def Frame.Fits (space : Option SpacePtr) : Frame → Prop
  | .notify (.ipcTimeout st) => st.Used
  | .notify .irqThread | .irqSent | .irqIdle => space = none
  | _ => True

/-- The thread runs only if it is activated. -/
structure TcbActivity.Sound (a : TcbActivity) : Prop where
  resting : a.ident.Activated ∨ a.state.Resting
  unused : a.state = .zero → a.ident.utcb = none ∧ a.ident.space = none ∧
    a.ident.myselfGlobal = .nilthread ∧ a.ident.scheduler = .nilthread
  state : a.state ≠ .waitingTunneledPf
  saved : a.savedState ≠ .waitingTunneledPf ∧ (a.savedState = .zero → a.state = .zero)
  frames : ∀ f ∈ a.stack, f.Fits a.ident.space

/-- The activated threads are those in `A`. Every TCB is sound, the current thread is activated, the
ready queues lead to initialised TCBs only, and the wakeup queue is a circle of activated threads,
with none of the threads in `C`. -/
structure Activity.Sound (A C : TcbPtr → Prop) (a : Activity) : Prop where
  activated : ∀ p, (a.tcb p).ident.Activated ↔ A p
  tcb : ∀ p, (a.tcb p).Sound
  current : A a.currentTcb
  idle : A .idle
  links : Within (fun p => (a.tcb p).state ≠ .zero) a.readyList
  heads : ∀ n p, a.prioQueue n = some p → (a.tcb p).state ≠ .zero
  wakeup : ∃ L, IsRing a.waitList a.wakeupList L ∧ ∀ p, p ∈ L ↔ (a.tcb p).wakeup = true
  timed : ∀ p, (a.tcb p).wakeup = true → A p
  clear : ∀ p, C p → (a.tcb p).wakeup = false

abbrev KState.Sound (A C : TcbPtr → Prop) (s : KState) : Prop := s.activity.Sound A C

theorem KState.Sound.activated_iff (h : s.Sound A C) (p : TcbPtr) :
    (s.tcb p).ident.Activated ↔ A p := h.activated p

/-- A thread that is not left alone is activated. -/
theorem KState.Sound.of_state (h : s.Sound A C) (hst : ¬(s.tcb p).state.Resting) : A p :=
  (h.activated p).mp ((h.tcb p).resting.resolve_right hst)

theorem KState.Sound.initialised (h : s.Sound A C) (hp : A p) : (s.tcb p).state ≠ .zero := by
  intro hz
  obtain ⟨hutcb, -⟩ := (h.tcb p).unused hz
  have hact := ((h.activated p).mpr hp).1
  rw [hutcb] at hact
  cases hact

theorem KState.Sound.used (h : s.Sound A C) (hp : A p) : (s.tcb p).state.Used :=
  ⟨h.initialised hp, (h.tcb p).state⟩

theorem KState.Sound.ring (h : s.Sound A C) : ∃ L, IsRing s.waitList s.wakeupList L ∧
    ∀ p, p ∈ L ↔ (s.tcb p).queueState.wakeup = true := h.wakeup

theorem KState.Sound.wakeup_clear (h : s.Sound A C) (hp : C p) :
    (s.tcb p).queueState.wakeup = false := h.clear p hp

theorem KState.Sound.of_wakeup (h : s.Sound A C) (hp : (s.tcb p).queueState.wakeup = true) : A p :=
  h.timed p hp

/-! ## Computations outside the activity -/

abbrev KeepsActivity (x : Kernel α) : Prop := Keeps KState.activity x

theorem KeepsActivity.preserves {x : Kernel α} (h : KeepsActivity x) :
    Preserves (KState.Sound A C) x :=
  Preserves.of_keeps (J := Activity.Sound A C) h

@[grind ←] theorem keepsActivity_modTcb {f : Tcb → Tcb} (h : ∀ c, (f c).activity = c.activity) :
    KeepsActivity (modTcb p f) := by
  refine .modify fun s => ?_
  simp only [KState.activity, Activity.mk.injEq, and_true]
  funext q
  rcases eq_or_ne q p with rfl | hq
  · simp [h]
  · simp [hq]

@[grind ←] theorem keepsActivity_modUtcb {f : Utcb → Utcb} : KeepsActivity (modUtcb p f) :=
  .bind keeps_getUtcb fun _ => .modify fun _ => rfl

@[grind ←] theorem keepsActivity_setSendLinks {l : TcbPtr → Link TcbPtr} :
    KeepsActivity (setSendLinks l) := .modify fun _ => rfl

@[grind ←] theorem keepsActivity_setMaxPrio {n : Int} : KeepsActivity (setMaxPrio n) :=
  .modify fun _ => rfl

@[grind ←] theorem keepsActivity_setQueueTimeslice {w : Word} :
    KeepsActivity (setQueueTimeslice w) := .modify fun _ => rfl

@[grind ←] theorem keepsActivity_tickTime : KeepsActivity tickTime :=
  .modify fun _ => by simp only [KState.activity]

theorem preservesSound_of_eq {f : Tcb → Tcb} (h : ∀ c, (f c).activity = c.activity) :
    Preserves (KState.Sound A C) (modTcb p f) :=
  (keepsActivity_modTcb h).preserves

theorem preservesSound_modUtcb {f : Utcb → Utcb} : Preserves (KState.Sound A C) (modUtcb p f) :=
  keepsActivity_modUtcb.preserves

theorem preservesSound_setTag {tag : MsgTag} : Preserves (KState.Sound A C) (setTag p tag) := by
  unfold setTag setMr
  exact preservesSound_modUtcb

theorem preservesSound_setErrorCode {err : Word} :
    Preserves (KState.Sound A C) (setErrorCode p err) := by
  unfold setErrorCode
  exact preservesSound_modUtcb

theorem preservesSound_setPartner {tid : ThreadId} :
    Preserves (KState.Sound A C) (setPartner p tid) := by
  unfold setPartner
  exact preservesSound_of_eq fun _ => rfl

/-! ## Changes of one thread -/

/-- An activated thread may get any states that are used. -/
theorem TcbActivity.Sound.setStates {a : TcbActivity} {st sv : ThreadState} (h : a.Sound)
    (ha : a.ident.Activated) (hst : st.Used) (hsv : sv.Used) :
    TcbActivity.Sound { a with state := st, savedState := sv } :=
  ⟨.inl ha, fun hz => absurd hz hst.1, hst.2, ⟨hsv.2, fun hz => absurd hz hsv.1⟩, h.frames⟩

theorem TcbActivity.Sound.used_savedState {a : TcbActivity} (h : a.Sound)
    (ha : a.ident.Activated) : a.savedState.Used := by
  refine ⟨fun hz => ?_, h.saved.1⟩
  have hutcb := ha.1
  rw [(h.unused (h.saved.2 hz)).1] at hutcb
  cases hutcb

theorem TcbActivity.Sound.used_state {a : TcbActivity} (h : a.Sound) (ha : a.ident.Activated) :
    a.state.Used := by
  refine ⟨fun hz => ?_, h.state⟩
  have hutcb := ha.1
  rw [(h.unused hz).1] at hutcb
  cases hutcb

theorem ThreadState.used_aborted : ThreadState.aborted.Used := by decide

theorem ThreadState.used_running : ThreadState.running.Used := by decide

/-- A frame more, or less. -/
theorem TcbActivity.Sound.setStack {a : TcbActivity} {st : List Frame} (h : a.Sound)
    (hst : ∀ f ∈ st, f.Fits a.ident.space) : TcbActivity.Sound { a with stack := st } :=
  ⟨h.resting, h.unused, h.state, h.saved, hst⟩

/-- A thread that was activated stays so, or could not have been dispatched. -/
def KState.MayLose (s : KState) (p : TcbPtr) (c : Tcb) : Prop :=
  c.ident.Activated ∨
    p ≠ s.currentTcb ∧ p ≠ .idle ∧ (s.tcb p).queueState.wakeup = false

/-- A TCB is replaced, its timeout apart. -/
theorem KState.Sound.replaceTcb {c : Tcb} (h : s.Sound A C)
    (hact : A p → s.MayLose p c)
    (hwake : c.queueState.wakeup = (s.tcb p).queueState.wakeup) (hc : c.activity.Sound)
    (hzero : c.state = .zero → (s.tcb p).state = .zero) :
    KState.Sound (Function.update A p c.ident.Activated) C
      { s with tcb := Function.update s.tcb p c } := by
  have hcases : ∀ q, (Function.update s.tcb p c q).activity.wakeup = (s.tcb q).queueState.wakeup ∧
      (Function.update s.tcb p c q).activity.Sound ∧
      ((Function.update s.tcb p c q).activity.state = .zero → (s.tcb q).state = .zero) := by
    intro q
    rcases eq_or_ne q p with rfl | hq
    · rw [Function.update_self]
      exact ⟨hwake, hc, hzero⟩
    · rw [Function.update_of_ne hq]
      exact ⟨rfl, h.tcb q, id⟩
  have hkeep : ∀ q, A q → (q = s.currentTcb ∨ q = .idle ∨ (s.tcb q).queueState.wakeup = true) →
      Function.update A p c.ident.Activated q := by
    intro q hq hneed
    rcases eq_or_ne q p with rfl | hne
    · rw [Function.update_self]
      refine (hact hq).resolve_right fun hlose => ?_
      rcases hneed with hq | hq | hq
      · exact hlose.1 hq
      · exact hlose.2.1 hq
      · rw [hlose.2.2] at hq
        cases hq
    · rwa [Function.update_of_ne hne]
  obtain ⟨L, hring, hbit⟩ := h.wakeup
  refine ⟨fun q => ?_, fun q => (hcases q).2.1, hkeep _ h.current (.inl rfl),
    hkeep _ h.idle (.inr (.inl rfl)), fun x y hy => ?_, fun n q hq => ?_,
    ⟨L, hring, fun q => ?_⟩, fun q hq => ?_, fun q hq => ?_⟩
  · change (Function.update s.tcb p c q).ident.Activated ↔ _
    rcases eq_or_ne q p with rfl | hq
    · rw [Function.update_self, Function.update_self]
    · rw [Function.update_of_ne hq, Function.update_of_ne hq]
      exact h.activated q
  · exact fun hz => h.links x y hy ((hcases y).2.2 hz)
  · exact fun hz => h.heads n q hq ((hcases q).2.2 hz)
  · rw [hbit q]
    exact iff_of_eq (congrArg (· = true) (hcases q).1.symm)
  · have hq' := (hcases q).1.symm.trans hq
    exact hkeep q (h.timed q hq') (.inr (.inr hq'))
  · exact (hcases q).1.trans (h.clear q hq)

/-- The activity of one thread changes, its timeout apart. -/
theorem KState.Sound.setTcb {c : Tcb} (h : s.Sound A C)
    (hact : c.ident.Activated ↔ (s.tcb p).ident.Activated)
    (hwake : c.queueState.wakeup = (s.tcb p).queueState.wakeup) (hc : c.activity.Sound)
    (hzero : c.state = .zero → (s.tcb p).state = .zero) :
    KState.Sound A C { s with tcb := Function.update s.tcb p c } := by
  have hA : Function.update A p c.ident.Activated = A := by
    funext q
    rcases eq_or_ne q p with rfl | hq
    · rw [Function.update_self]
      exact propext (hact.trans (h.activated q))
    · rw [Function.update_of_ne hq]
  have hset := h.replaceTcb (fun hp => .inl (hact.mpr ((h.activated p).mpr hp))) hwake hc hzero
  rwa [hA] at hset

/-- The general rule for updates of the TCB of an activated thread. -/
theorem preservesSound_modTcb {f : Tcb → Tcb} (hp : A p)
    (h : ∀ c : Tcb, c.activity.Sound → c.ident.Activated → (f c).ident.Activated ∧
      (f c).queueState.wakeup = c.queueState.wakeup ∧ (f c).state ≠ .zero ∧
      (f c).activity.Sound) : Preserves (KState.Sound A C) (modTcb p f) := by
  refine .modify fun s hs => ?_
  have hp' := (hs.activated p).mpr hp
  obtain ⟨hact, hwake, hzero, hsound⟩ := h (s.tcb p) (hs.tcb p) hp'
  exact hs.setTcb (iff_of_true hact hp') hwake hsound fun hz => absurd hz hzero

theorem preservesSound_setState {st : ThreadState} (hp : A p) (hst : st.Used) :
    Preserves (KState.Sound A C) (setState p st) :=
  preservesSound_modTcb hp fun _ hc ha =>
    ⟨ha, rfl, hst.1, hc.setStates ha hst (hc.used_savedState ha)⟩

theorem preservesSound_pushFrame {f : Frame} (hf : ∀ space, f.Fits space) :
    Preserves (KState.Sound A C) (pushFrame p f) := by
  refine .modify fun s hs => hs.setTcb .rfl rfl ?_ id
  refine (hs.tcb p).setStack fun g hg => ?_
  rcases List.mem_cons.mp hg with rfl | hg
  · exact hf _
  · exact (hs.tcb p).frames g hg

theorem preservesSound_returnToUser : Preserves (KState.Sound A C) (returnToUser p) :=
  .modify fun _ hs => hs.setTcb .rfl rfl ((hs.tcb p).setStack (List.forall_mem_nil _)) id

theorem KState.Sound.switchTo (h : s.Sound A C) (hp : A p) :
    KState.Sound A C { s with currentTcb := p } :=
  ⟨h.activated, h.tcb, hp, h.idle, h.links, h.heads, h.wakeup, h.timed, h.clear⟩

theorem preservesSound_switchTo (hp : A p) : Preserves (KState.Sound A C) (switchTo p) :=
  .modify fun _ hs => hs.switchTo hp

/-- The partner is dispatched, or the idle thread. -/
theorem preservesSound_switchTo_getD {o : Option TcbPtr} (ho : ∀ q, o = some q → A q) :
    Preserves (KState.Sound A C) (switchTo (o.getD .idle)) := by
  cases o with
  | none => exact .modify fun _ hs => hs.switchTo hs.idle
  | some q => exact preservesSound_switchTo (ho q rfl)

theorem preservesSound_switchToIdle : Preserves (KState.Sound A C) switchToIdle :=
  .modify fun _ hs => hs.switchTo hs.idle

/-! ## Ready queues -/

theorem KState.Sound.setReady {n : Int} {head : Option TcbPtr} {links : TcbPtr → Link TcbPtr}
    (h : s.Sound A C) (hlinks : Within (fun q => (s.tcb q).state ≠ .zero) links)
    (hhead : ∀ q, head = some q → (s.tcb q).state ≠ .zero) :
    KState.Sound A C
      { s with prioQueue := Function.update s.prioQueue n head, readyList := links } := by
  refine ⟨h.activated, h.tcb, h.current, h.idle, hlinks, fun m q hq => ?_, h.wakeup, h.timed,
    h.clear⟩
  change Function.update s.prioQueue n head m = some q at hq
  rcases eq_or_ne m n with rfl | hm
  · rw [Function.update_self] at hq
    exact hhead q hq
  · rw [Function.update_of_ne hm] at hq
    exact h.heads m q hq

/-- An initialised thread is put into a ready queue. -/
theorem wp_enqueueReady_sound {b : Bool} (h : s.Sound A C) (hp : (s.tcb p).state ≠ .zero) :
    wp (fun _ => True) (enqueueReady p b) (fun _ t => KState.Sound A C t) s := by
  rw [enqueueReady, wp_bind, wp_readTcb, wp_ite]
  split
  · exact h
  · simp only [wp_bind, wp_gets, id]
    cases hr : (if b = true then
        Ring.enqueueHead (s.prioQueue (s.tcb p).priority) s.readyList p
        else Ring.enqueueTail (s.prioQueue (s.tcb p).priority) s.readyList p) with
    | none => exact trivial
    | some r =>
      obtain ⟨head, links⟩ := r
      have hwithin : Within (fun q => (s.tcb q).state ≠ .zero) links ∧
          ∀ q, head = some q → (s.tcb q).state ≠ .zero := by
        split at hr
        · exact h.links.enqueueHead (h.heads _) hp hr
        · exact h.links.enqueueTail (h.heads _) hp hr
      simp only [ofLinks, wp_pure, setReadyQueue, wp_modify, Kernel.setReady, wp_modTcb, setMaxPrio]
      exact (h.setReady hwithin.1 hwithin.2).setTcb .rfl rfl (h.tcb p) id

theorem preservesSound_enqueueReady {b : Bool} (hp : A p) :
    Preserves (KState.Sound A C) (enqueueReady p b) :=
  .of_wp fun _ hs => wp_enqueueReady_sound hs (hs.initialised hp)

theorem preservesSound_dequeueReady : Preserves (KState.Sound A C) (dequeueReady p) := by
  refine .of_wp fun s h => ?_
  rw [dequeueReady, wp_bind, wp_readTcb, wp_ite]
  split
  · simp only [wp_bind, wp_gets, id]
    cases hr : Ring.dequeue (s.prioQueue (s.tcb p).priority) s.readyList p with
    | none => exact trivial
    | some r =>
      obtain ⟨head, links⟩ := r
      have hwithin := h.links.dequeue (h.heads _) hr
      simp only [ofLinks, wp_pure, setReadyQueue, wp_modify, Kernel.setReady, wp_modTcb]
      exact (h.setReady hwithin.1 hwithin.2).setTcb .rfl rfl (h.tcb p) id
  · exact h

theorem KState.Sound.setHead {n : Int} {head : Option TcbPtr} (h : s.Sound A C)
    (hhead : ∀ q, head = some q → (s.tcb q).state ≠ .zero) :
    KState.Sound A C { s with prioQueue := Function.update s.prioQueue n head } :=
  h.setReady h.links hhead

/-! ## The wakeup queue -/

/-- The wakeup queue and the bit of one thread change. -/
theorem KState.Sound.setWakeup {head : Option TcbPtr} {links : TcbPtr → Link TcbPtr} {c : Tcb}
    {L : List TcbPtr} {C' : TcbPtr → Prop} (h : s.Sound A C) (hring : IsRing links head L)
    (hc : c.activity = { (s.tcb p).activity with wakeup := c.queueState.wakeup })
    (hbit : ∀ q, q ∈ L ↔ if q = p then c.queueState.wakeup = true
      else (s.tcb q).queueState.wakeup = true)
    (hp : c.queueState.wakeup = true → A p)
    (hC : ∀ q, C' q → q ∉ L) :
    KState.Sound A C' { s with
      wakeupList := head, waitList := links, tcb := Function.update s.tcb p c } := by
  have hcases : ∀ q, (Function.update s.tcb p c q).activity =
      { (s.tcb q).activity with wakeup := decide (q ∈ L) } := by
    intro q
    have hq := hbit q
    rcases eq_or_ne q p with rfl | hne
    · rw [if_pos rfl] at hq
      rw [Function.update_self, hc]
      simp only [hq, Bool.decide_eq_true]
    · rw [if_neg hne] at hq
      rw [Function.update_of_ne hne]
      simp only [hq, Bool.decide_eq_true]
      rfl
  have htimed : ∀ q, q ∈ L → A q := by
    intro q hq
    rcases eq_or_ne q p with rfl | hne
    · exact hp (by simpa using (hbit q).mp hq)
    · exact h.of_wakeup (by simpa [hne] using (hbit q).mp hq)
  simp only [KState.Sound, KState.activity, hcases]
  refine ⟨h.activated, fun q => ?_, h.current, h.idle, h.links, h.heads, ⟨L, hring, by simp⟩, ?_,
    ?_⟩
  · have hq := h.tcb q
    exact ⟨hq.resting, hq.unused, hq.state, hq.saved, hq.frames⟩
  · exact fun q hq => htimed q (of_decide_eq_true hq)
  · exact fun q hq => decide_eq_false (hC q hq)

/-- What is known to be out of the queue need not be remembered. -/
theorem KState.Sound.forget {C' : TcbPtr → Prop} (h : s.Sound A C) (hC : ∀ q, C' q → C q) :
    s.Sound A C' :=
  ⟨h.activated, h.tcb, h.current, h.idle, h.links, h.heads, h.wakeup, h.timed,
    fun q hq => h.clear q (hC q hq)⟩

theorem KState.Sound.recall (h : s.Sound A C) (hp : (s.tcb p).queueState.wakeup = false) :
    s.Sound A (fun q => C q ∨ q = p) := by
  refine ⟨h.activated, h.tcb, h.current, h.idle, h.links, h.heads, h.wakeup, h.timed, ?_⟩
  rintro q (hq | rfl)
  · exact h.clear q hq
  · exact hp

/-- The thread is taken out of the queue. -/
theorem leads_cancelTimeout :
    Leads (KState.Sound A C) (cancelTimeout p)
      (fun _ t => t.Sound A (fun q => C q ∨ q = p)) := by
  refine .of_wp fun s h => ?_
  rw [cancelTimeout, wp_bind, wp_readTcb, wp_ite]
  split
  · rename_i hbit
    obtain ⟨L, hring, hL⟩ := h.ring
    obtain ⟨head, links, hdeq, hring', -⟩ := hring.dequeue ((hL p).mpr hbit)
    simp only [wp_bind, wp_gets, id, hdeq, ofLinks, wp_pure, setWakeupList, wp_modify,
      Kernel.setWakeup, wp_modTcb]
    have hmem : ∀ q, q ∈ L.erase p ↔ q ≠ p ∧ q ∈ L := fun q => hring.cyc.nodup.mem_erase_iff
    refine h.setWakeup hring' rfl (fun q => ?_) (fun hr => by cases hr) fun q hq hmemq => ?_
    · rw [hmem]
      split
      · simp [*]
      · rw [hL]
        simp only [*, ne_eq, not_false_eq_true, true_and]
    · obtain ⟨hne, hqL⟩ := (hmem q).mp hmemq
      have hq' := h.wakeup_clear (hq.resolve_right hne)
      rw [← Bool.not_eq_true, ← hL] at hq'
      exact hq' hqL
  · rename_i hbit
    exact h.recall (Bool.not_eq_true _ ▸ hbit)

theorem preservesSound_cancelTimeout : Preserves (KState.Sound A C) (cancelTimeout p) :=
  fun s a t hs hrun => (leads_cancelTimeout s a t hs hrun).forget fun _ => .inl

/-- The timeout of an activated thread that is not in the queue. -/
theorem leads_setTimeout {time : Time} (hp : A p) (hC : C p) :
    Leads (KState.Sound A C) (setTimeout p time)
      (fun _ t => KState.Sound A (fun q => C q ∧ q ≠ p) t) := by
  refine .of_wp fun s h => ?_
  rw [setTimeout, wp_ite]
  split
  · exact trivial
  · obtain ⟨L, hring, hL⟩ := h.ring
    have hout : p ∉ L := by
      rw [hL, h.wakeup_clear hC]
      exact nofun
    obtain ⟨head, links, henq, hring', -⟩ := hring.enqueueTail hout
    simp only [setTimeoutAt, wp_bind, wp_gets, id, wp_modTcb, henq, ofLinks, wp_pure, setWakeupList,
      wp_modify, Kernel.setWakeup, Function.update_self, Function.update_idem]
    refine h.setWakeup hring' rfl (fun q => ?_) (fun _ => hp) fun q hq hmemq => ?_
    · rw [List.mem_append, hL]
      split
      · simp [*]
      · simp only [List.mem_singleton, *, or_false]
    · have hq' := h.wakeup_clear hq.1
      rw [← Bool.not_eq_true, ← hL] at hq'
      rcases List.mem_append.mp hmemq with hm | hm
      · exact hq' hm
      · exact hq.2 (List.mem_singleton.mp hm)

/-! ## Dispatch decisions -/

section Dispatch

variable {b : Bool}

@[grind ←] theorem keepsActivity_delayPreemption : KeepsActivity (delayPreemption p q) := by
  unfold delayPreemption
  grind

@[grind ←] theorem keepsActivity_checkDispatchThread :
    KeepsActivity (checkDispatchThread p q) := by
  unfold checkDispatchThread
  grind

theorem preservesSound_preemptThread (hp : A p) :
    Preserves (KState.Sound A C) (preemptThread p q) := by
  unfold preemptThread
  refine .bind (.gets _) fun _ => .bind ?_ fun _ => .bind ?_ fun _ => .bind (.gets _) fun _ => ?_
  · exact preservesSound_of_eq fun _ => rfl
  · exact preservesSound_enqueueReady hp
  · exact keepsActivity_setQueueTimeslice.preserves

/-- A runnable thread in a ready queue is activated. -/
theorem leads_findRunnable {prio : Int} (n : Nat) :
    Leads (KState.Sound A C) (findRunnable prio n)
      (fun o t => t.Sound A C ∧ ∀ p, o = some p → A p) := by
  induction n with
  | zero => exact .trap _
  | succ n ih =>
    refine .of_wp fun s h => ?_
    rw [findRunnable, wp_bind, wp_gets]
    cases hq : s.prioQueue prio with
    | none => exact ⟨h, nofun⟩
    | some p =>
      simp only [getState, wp_bind, wp_readTcb, wp_pure]
      split
      · rename_i hrun
        have hp : A p := by
          refine h.of_state ?_
          have hzero : (s.tcb p).state ≠ .zero := h.heads prio p hq
          rintro (hz | hz | hz)
          · exact hzero hz
          all_goals
            rw [hz] at hrun
            cases hrun
        simp only [setPrioQueue, setMaxPrio, wp_bind, wp_modify, wp_pure]
        refine ⟨h.setHead ?_, ?_⟩
        · rintro q ⟨⟩
          exact h.initialised hp
        · rintro q ⟨⟩
          exact hp
      · rw [wp_bind]
        refine preservesSound_dequeueReady.wp h fun _ t ht => ?_
        exact wp_iff_ok.mpr fun a u hrun => ih t a u ht hrun

theorem leads_findBelow (n : Nat) :
    Leads (KState.Sound A C) (findBelow n) (fun p t => t.Sound A C ∧ A p) := by
  induction n with
  | zero =>
    refine .after keepsActivity_setMaxPrio.preserves fun _ => .pure fun s h => ⟨h, h.idle⟩
  | succ n ih =>
    refine .bind (leads_findRunnable _) fun o => ?_
    cases o with
    | none => exact ih.weaken fun _ h => h.1
    | some p => exact .pure fun s h => ⟨h.1, h.2 p rfl⟩

theorem leads_findNextThread :
    Leads (KState.Sound A C) findNextThread (fun p t => t.Sound A C ∧ A p) :=
  .read fun _ _ => leads_findBelow _

theorem preservesSound_schedule (hp : A p) : Preserves (KState.Sound A C) (schedule p) := by
  unfold schedule
  refine Leads.bind leads_findNextThread fun q => ?_
  split
  · exact .pure fun _ h => h.1
  · refine .assume fun hq => ?_
    dsimp only
    have hswitch : Preserves (KState.Sound A C) (do switchTo q; pure true) :=
      .bind (preservesSound_switchTo hq) fun _ => .pure _
    split
    · exact Preserves.bind (preservesSound_enqueueReady hp) fun _ => hswitch
    · exact hswitch

theorem preservesSound_endOfTimeslice (hp : A p) :
    Preserves (KState.Sound A C) (endOfTimeslice p) := by
  unfold endOfTimeslice
  refine .bind (preservesSound_enqueueReady hp) fun _ => ?_
  refine .of_wp fun s h => ?_
  simp only [wp_bind, wp_readTcb, wp_gets, setPrioQueue, wp_modify]
  have hs : KState.Sound A C { s with
      prioQueue := Function.update s.prioQueue (s.tcb p).priority (s.readyList p).next } :=
    h.setHead fun q hq => h.links p q (.inl hq)
  refine Preserves.wp (preservesSound_of_eq ?_) hs fun _ t ht => ?_
  · exact fun _ => rfl
  · refine Preserves.wp (KeepsActivity.preserves keeps_ofLinks) ht fun _ u hu => ?_
    exact keepsActivity_setQueueTimeslice.preserves.wp hu fun _ _ h => h

/-- The thread is in the wakeup queue. -/
theorem KState.Sound.of_next (h : s.Sound A C) (hp : (s.tcb p).queueState.wakeup = true)
    (hq : (s.waitList p).next = some q) :
    (s.tcb q).queueState.wakeup = true := by
  obtain ⟨L, hring, hL⟩ := h.ring
  obtain ⟨n, hn, hnext⟩ := hring.cyc.next_mem ((hL p).mpr hp)
  obtain rfl : n = q := Option.some.inj (hnext.symm.trans hq)
  exact (hL n).mp hn

/-- An expired thread is made running. -/
theorem leads_wakeupExpired (hp : A p) (hq : A q) :
    Leads (KState.Sound A C) (wakeupExpired p q) (fun r t => t.Sound A C ∧ A r) := by
  refine .read fun s h => ?_
  have hpure : ∀ r, A r → Leads (KState.Sound A C) (pure r : Kernel TcbPtr)
      (fun r t => t.Sound A C ∧ A r) := fun r hr => .pure fun _ h => ⟨h, hr⟩
  dsimp only
  split
  · exact .after preservesSound_cancelTimeout fun _ => hpure p hp
  · refine .after keepsActivity_checkDispatchThread.preserves fun higher => ?_
    refine .after preservesSound_cancelTimeout fun _ => ?_
    refine .after (preservesSound_of_eq fun _ => rfl) fun _ => ?_
    have hrest : Leads (KState.Sound A C) (do
        setState q .running
        enqueueReady q false
        pure (if higher then q else p)) (fun r t => t.Sound A C ∧ A r) := by
      refine .after (preservesSound_setState hq (by decide)) fun _ => ?_
      refine .after (preservesSound_enqueueReady hq) fun _ => hpure _ ?_
      split
      · exact hq
      · exact hp
    split
    · rename_i hst
      refine .after (preservesSound_pushFrame fun _ => ?_) fun _ => hrest
      change (s.tcb q).state.Used
      revert hst
      cases (s.tcb q).state <;> decide
    · exact hrest

/-- The wakeup queue and its bits. -/
def KState.timeouts (s : KState) : (TcbPtr → Bool) × (TcbPtr → Link TcbPtr) × Option TcbPtr :=
  (fun p => (s.tcb p).queueState.wakeup, s.waitList, s.wakeupList)

abbrev KeepsTimeouts (x : Kernel α) : Prop := Keeps KState.timeouts x

@[grind ←] theorem keepsTimeouts_modTcb {f : Tcb → Tcb}
    (h : ∀ c, (f c).queueState.wakeup = c.queueState.wakeup) : KeepsTimeouts (modTcb p f) := by
  refine .modify fun s => ?_
  simp only [KState.timeouts, Prod.mk.injEq, and_true]
  funext q
  rcases eq_or_ne q p with rfl | hq
  · simp [h]
  · simp [hq]

theorem keepsTimeouts_pushFrame {f : Frame} : KeepsTimeouts (pushFrame p f) := by
  unfold pushFrame
  exact keepsTimeouts_modTcb fun _ => rfl

@[grind ←] theorem keepsTimeouts_setMaxPrio {n : Int} : KeepsTimeouts (setMaxPrio n) :=
  .modify fun _ => rfl

@[grind ←] theorem keepsTimeouts_setReadyQueue {n : Int} {h : Option TcbPtr}
    {l : TcbPtr → Link TcbPtr} : KeepsTimeouts (setReadyQueue n h l) :=
  .modify fun _ => rfl

@[grind ←] theorem keepsTimeouts_enqueueReady : KeepsTimeouts (enqueueReady p b) := by
  unfold enqueueReady setReady
  refine .bind (.gets _) fun _ => ?_
  split
  · exact .pure _
  · refine .bind (.gets _) fun _ => .bind keeps_ofLinks fun _ => ?_
    refine .bind keepsTimeouts_setReadyQueue fun _ => ?_
    exact .bind (keepsTimeouts_modTcb fun _ => rfl) fun _ => keepsTimeouts_setMaxPrio

theorem keepsTimeouts_dequeueReady : KeepsTimeouts (dequeueReady p) := by
  unfold dequeueReady setReady
  refine .bind (.gets _) fun _ => ?_
  split
  · refine .bind (.gets _) fun _ => .bind keeps_ofLinks fun _ => ?_
    exact .bind keepsTimeouts_setReadyQueue fun _ => keepsTimeouts_modTcb fun _ => rfl
  · exact .pure _

@[grind ←] theorem keepsTimeouts_checkDispatchThread :
    KeepsTimeouts (checkDispatchThread p q) := by
  unfold checkDispatchThread delayPreemption
  grind

/-- The queue is empty without `p`, or goes on with the thread behind it. -/
theorem wp_cancelTimeout_next {n : TcbPtr} (h : s.Sound A C)
    (hp : (s.tcb p).queueState.wakeup = true) (hn : (s.waitList p).next = some n) :
    wp (fun _ => True) (cancelTimeout p)
      (fun _ t => t.wakeupList = none ∨ (t.tcb n).queueState.wakeup = true) s := by
  obtain ⟨L, hring, hL⟩ := h.ring
  obtain ⟨head, links, hdeq, hring', -⟩ := hring.dequeue ((hL p).mpr hp)
  rw [cancelTimeout, wp_bind, wp_readTcb, if_pos hp]
  simp only [wp_bind, wp_gets, id, hdeq, ofLinks, wp_pure, setWakeupList, wp_modify,
    Kernel.setWakeup, wp_modTcb]
  rcases eq_or_ne n p with rfl | hne
  · left
    obtain rfl := (hring.cyc.next_eq_self_iff ((hL n).mpr hp)).mp hn
    simpa using hring'.head_eq
  · right
    rw [Function.update_of_ne hne]
    exact h.of_next hp hn

theorem leads_wakeupExpired_next {n : TcbPtr} :
    Leads (fun s => s.Sound A C ∧ (s.tcb q).queueState.wakeup = true ∧
        (s.waitList q).next = some n) (wakeupExpired p q)
      (fun _ t => t.wakeupList = none ∨ (t.tcb n).queueState.wakeup = true) := by
  refine .of_wp fun s h => ?_
  obtain ⟨hs, hq, hn⟩ := h
  have hkeep : ∀ {x : Kernel TcbPtr} {r : KState}, KeepsTimeouts x →
      r.wakeupList = none ∨ (r.tcb n).queueState.wakeup = true →
      wp (fun _ => True) x (fun _ t => t.wakeupList = none ∨
        (t.tcb n).queueState.wakeup = true) r := by
    intro x r hx hr
    refine hx.wp fun _ t ht => ?_
    simp only [KState.timeouts, Prod.mk.injEq] at ht
    rw [ht.2.2, show (t.tcb n).queueState.wakeup = (r.tcb n).queueState.wakeup from
      congrFun ht.1 n]
    exact hr
  rw [wakeupExpired, wp_bind, wp_readTcb, wp_ite]
  split
  · rw [wp_bind]
    exact wp_mono (wp_cancelTimeout_next hs hq hn) fun _ r hr => hkeep (.pure _) hr
  · rw [wp_bind]
    refine wp_iff_ok.mpr fun higher r hr => ?_
    have hrs := keepsActivity_checkDispatchThread.preserves (A := A) (C := C) s _ r hs hr
    have hkept := keepsTimeouts_checkDispatchThread s _ r hr
    simp only [KState.timeouts, Prod.mk.injEq] at hkept
    have hrq : (r.tcb q).queueState.wakeup = true := (congrFun hkept.1 q).trans hq
    rw [← hkept.2.1] at hn
    rw [wp_bind]
    refine wp_mono (wp_cancelTimeout_next hrs hrq hn) fun _ u hu => hkeep ?_ hu
    refine .bind (keepsTimeouts_modTcb fun _ => rfl) fun _ => ?_
    have hrest : KeepsTimeouts (do
        setState q .running
        enqueueReady q false
        pure (if higher then q else p) : Kernel TcbPtr) :=
      .bind (keepsTimeouts_modTcb fun _ => rfl) fun _ =>
        .bind keepsTimeouts_enqueueReady fun _ => .pure _
    dsimp only
    split
    · exact .bind keepsTimeouts_pushFrame fun _ => hrest
    · exact hrest

/-- The end of an iteration: the link was read before the thread was taken out of the queue. -/
theorem wp_parseNext {n : Nat} {next : Option TcbPtr} {expired : Prop} [Decidable expired]
    (ih : ∀ {q}, Leads (fun s => s.Sound A C ∧ (s.tcb q).queueState.wakeup = true)
      (parseLoop n p q) (fun r t => t.Sound A C ∧ A r))
    (hs : s.Sound A C) (hp : A p) (hbit : s.wakeupList = none ∨
      ∀ m, next = some m → (s.tcb m).queueState.wakeup = true) :
    wp (fun _ => True) (do
      match (← gets (·.wakeupList)) with
      | none => pure p
      | some h =>
        if next ≠ some h ∨ expired then parseLoop n p (← ofLinks next)
        else pure p) (fun r t => t.Sound A C ∧ A r) s := by
  rw [wp_bind, wp_gets]
  cases hw : s.wakeupList with
  | none => exact ⟨hs, hp⟩
  | some head =>
    rw [hw] at hbit
    have hbit := hbit.resolve_left (Option.some_ne_none head)
    dsimp only
    split
    · cases hn : next with
      | none => exact trivial
      | some m =>
        simp only [ofLinks, wp_bind, wp_pure]
        exact wp_iff_ok.mpr fun a t hrun => ih s a t ⟨hs, hbit m hn⟩ hrun
    · exact ⟨hs, hp⟩

/-- The loop over the wakeup queue. -/
theorem leads_parseLoop (n : Nat) : ∀ {p q : TcbPtr}, A p →
    Leads (fun s => s.Sound A C ∧ (s.tcb q).queueState.wakeup = true) (parseLoop n p q)
      (fun r t => t.Sound A C ∧ A r) := by
  induction n with
  | zero => exact fun _ => .trap _
  | succ n ih =>
    intro p q hp
    refine .of_wp fun s h => ?_
    obtain ⟨hs, hq⟩ := h
    simp only [parseLoop, wp_bind, wp_gets]
    have hmem : ∀ m, (s.waitList q).next = some m → (s.tcb m).queueState.wakeup = true :=
      fun m hm => hs.of_next hq hm
    split
    · rw [wp_bind]
      refine wp_iff_ok.mpr fun r' r hr => ?_
      obtain ⟨hrs, hr'⟩ := leads_wakeupExpired hp (hs.of_wakeup hq) s r' r hs hr
      obtain ⟨L, hring, hL⟩ := hs.ring
      obtain ⟨m, -, hm⟩ := hring.cyc.next_mem ((hL q).mpr hq)
      refine wp_parseNext (ih hr') hrs hr' ?_
      rcases leads_wakeupExpired_next s r' r ⟨hs, hq, hm⟩ hr with hempty | hbit
      · exact .inl hempty
      · right
        intro m' hm'
        obtain rfl : m = m' := Option.some.inj (hm.symm.trans hm')
        exact hbit
    · exact wp_parseNext (ih hp) hs hp (.inr hmem)

theorem leads_parseWakeupQueues (hp : A p) :
    Leads (KState.Sound A C) (parseWakeupQueues p) (fun r t => t.Sound A C ∧ A r) := by
  refine .of_wp fun s h => ?_
  rw [parseWakeupQueues, wp_bind, wp_gets]
  cases hw : s.wakeupList with
  | none => exact ⟨h, hp⟩
  | some q =>
    have hq : (s.tcb q).queueState.wakeup = true := by
      obtain ⟨L, hring, hL⟩ := h.ring
      exact (hL q).mp (List.mem_of_mem_head? (hring.head_eq.symm.trans hw))
    exact wp_iff_ok.mpr fun a t hrun => leads_parseLoop _ hp s a t ⟨h, hq⟩ hrun

end Dispatch

/-! ## The scheduler's system calls -/

/-- A TCB with an id is initialised. -/
theorem KState.Sound.initialised_of_id (h : s.Sound A C)
    (hid : (s.tcb p).myselfGlobal ≠ .nilthread) : (s.tcb p).state ≠ .zero :=
  fun hz => hid ((h.tcb p).unused hz).2.2.1

theorem KState.Sound.of_runnable (h : s.Sound A C) (hrun : (s.tcb p).state.isRunnable = true)
    (hid : (s.tcb p).myselfGlobal ≠ .nilthread) : A p := by
  refine h.of_state ?_
  rintro (hz | hz | hz)
  · exact h.initialised_of_id hid hz
  all_goals
    rw [hz] at hrun
    cases hrun

theorem preservesSound_sysThreadSwitch {dest : ThreadId} :
    Preserves (KState.Sound A C) (sysThreadSwitch dest) := by
  unfold sysThreadSwitch
  refine Leads.read fun s hs => .read fun s' hs' => ?_
  have hcur : A s.currentTcb := hs.current
  dsimp only
  split
  · exact Preserves.pure _
  · split
    · rename_i hdest
      have hd : A (getTcb dest) := by
        refine hs'.of_runnable hdest.2.1 fun hnil => ?_
        have hne := hdest.1
        rw [← hdest.2.2, hnil] at hne
        cases hne
      exact Preserves.bind (preservesSound_enqueueReady hcur) fun _ => preservesSound_switchTo hd
    · refine Leads.after (preservesSound_enqueueReady hcur) fun _ => .read fun _ _ => ?_
      have hrest : Preserves (KState.Sound A C) (do
          setQueueTimeslice 0
          endOfTimeslice s.currentTcb
          let _ ← schedule s.currentTcb) := by
        refine .bind keepsActivity_setQueueTimeslice.preserves fun _ => ?_
        refine .bind (preservesSound_endOfTimeslice hcur) fun _ => ?_
        exact .bind (preservesSound_schedule hcur) fun _ => .pure _
      split
      · refine Preserves.bind preservesSound_modUtcb fun _ => ?_
        exact .bind (preservesSound_of_eq fun _ => rfl) fun _ => hrest
      · exact hrest

/-- The state is sound and `p` is initialised. -/
def KState.SoundAt (A C : TcbPtr → Prop) (p : TcbPtr) (s : KState) : Prop :=
  s.Sound A C ∧ (s.tcb p).state ≠ .zero

theorem soundAt_of_core {x : Kernel α} (hcore : KeepsCore x)
    (h : ∀ s, s.SoundAt A C p → wp (fun _ => True) x (fun _ t => t.Sound A C) s) :
    Preserves (KState.SoundAt A C p) x := by
  intro s a t hs hx
  have hp : ((t.tcb p).core).state = ((s.tcb p).core).state :=
    congrArg Tcb.state (congrFun (congrArg Core.tcb (hcore s a t hx)) p)
  refine ⟨wp_iff_ok.mp (h s hs) a t hx, fun hz => hs.2 ?_⟩
  exact hp.symm.trans hz

theorem preservesSoundAt_of_eq {f : Tcb → Tcb} (h : ∀ c, (f c).activity = c.activity) :
    Preserves (KState.SoundAt A C p) (modTcb q f) :=
  Preserves.of_keeps (J := fun a : Activity => a.Sound A C ∧ (a.tcb p).state ≠ .zero)
    (keepsActivity_modTcb h)

theorem preservesSoundAt_enqueueReady {b : Bool} :
    Preserves (KState.SoundAt A C p) (enqueueReady p b) :=
  soundAt_of_core keepsCore_enqueueReady fun _ hs => wp_enqueueReady_sound hs.1 hs.2

theorem preservesSoundAt_scheduleTime {quantum timeslice : Time} :
    Preserves (KState.SoundAt A C p) (scheduleTime p quantum timeslice) := by
  unfold scheduleTime
  have hslice : Preserves (KState.SoundAt A C p)
      (if timeslice.isPeriod = true then setTimesliceLength p timeslice else pure ()) := by
    split
    · exact preservesSoundAt_of_eq fun _ => rfl
    · exact .pure _
  dsimp only
  split
  · refine .bind ?_ fun _ => .bind preservesSoundAt_enqueueReady fun _ => hslice
    exact preservesSoundAt_of_eq fun _ => rfl
  · exact hslice

theorem preservesSoundAt_schedulePreemption {maxDelay : BitVec 16} {sensPrio : Int} :
    Preserves (KState.SoundAt A C p) (schedulePreemption p maxDelay sensPrio) := by
  unfold schedulePreemption
  refine .bind ?_ fun _ => .bind (.gets _) fun _ => ?_
  · exact preservesSoundAt_of_eq fun _ => rfl
  · split
    · exact preservesSoundAt_of_eq fun _ => rfl
    · exact .pure _

theorem preservesSoundAt_doSchedule {timeControl prio preemptionControl : Word} :
    Preserves (KState.SoundAt A C p) (doSchedule p timeControl prio preemptionControl) := by
  unfold doSchedule
  refine .bind ?_ fun _ => ?_
  · unfold schedulePrio
    refine .bind (.gets _) fun _ => ?_
    split
    · refine .bind ?_ fun _ => .bind ?_ fun _ => preservesSoundAt_enqueueReady
      · exact soundAt_of_core keepsCore_dequeueReady fun s hs =>
          preservesSound_dequeueReady.wp hs.1 fun _ _ h => h
      · exact preservesSoundAt_of_eq fun _ => rfl
    · exact .pure _
  · have hpreempt : Preserves (KState.SoundAt A C p)
        (if preemptionControl ≠ BitVec.allOnes 64 then
          schedulePreemption p ((preemptionControl &&& 0xffff).setWidth 16)
            ((preemptionControl >>> 16) &&& 0xff).toNat else pure ()) := by
      split
      · exact preservesSoundAt_schedulePreemption
      · exact .pure _
    dsimp only
    split
    · exact .bind preservesSoundAt_scheduleTime fun _ => hpreempt
    · exact hpreempt

theorem preservesSound_sysSchedule {dest : ThreadId} {timeControl prio preemptionControl : Word} :
    Preserves (KState.Sound A C) (sysSchedule dest timeControl prio preemptionControl) := by
  refine .of_wp fun s h => ?_
  simp only [sysSchedule, wp_bind, wp_getCurrentTcb, wp_readTcb]
  have herr : ∀ {err : Word}, wp (fun _ => True)
      (do setErrorCode s.currentTcb err; pure (0 : Word)) (fun _ t => KState.Sound A C t) s :=
    (Preserves.bind preservesSound_modUtcb fun _ => .pure _).wp h fun _ _ ht => ht
  split
  · exact herr
  · rename_i hid
    simp only [wp_bind, wp_getCurrentSpace, wp_readTcb]
    split
    · exact herr
    · rename_i hsched
      -- An unused TCB is its own scheduler and is in no space.
      have hp : (s.tcb (getTcb dest)).state ≠ .zero := by
        intro hz
        obtain ⟨-, hspace, hglobal, hscheduler⟩ := (h.tcb (getTcb dest)).unused hz
        change (s.tcb (getTcb dest)).space = none at hspace
        change (s.tcb (getTcb dest)).myselfGlobal = .nilthread at hglobal
        change (s.tcb (getTcb dest)).scheduler = .nilthread at hscheduler
        have hnil : ThreadId.nilthread = dest := hglobal.symm.trans (not_not.mp hid)
        have hcur : s.current.space.isSome := ((h.activated _).mpr h.current).2
        rw [hscheduler, hnil, hspace] at hsched
        rw [← not_not.mp (not_or.mp hsched).2] at hcur
        cases hcur
      rw [wp_bind]
      refine preservesSoundAt_doSchedule.wp ⟨h, hp⟩ fun _ t ht => ?_
      exact ht.1

/-! ## Unwinding -/

section Unwind

variable {tag : MsgTag} {reason : UnwindReason}

@[grind ←] theorem keepsActivity_enqueueSend : KeepsActivity (enqueueSend p q) := by
  unfold enqueueSend setSendQueue setSend
  refine .bind (.gets _) fun _ => .bind keeps_ofLinks fun _ => .bind ?_ fun _ => ?_
  · exact .bind (keepsActivity_modTcb fun _ => rfl) fun _ => keepsActivity_setSendLinks
  · exact keepsActivity_modTcb fun _ => rfl

@[grind ←] theorem keepsActivity_dequeueSend : KeepsActivity (dequeueSend p q) := by
  unfold dequeueSend setSendQueue setSend
  refine .bind (.gets _) fun _ => .bind keeps_ofLinks fun _ => .bind ?_ fun _ => ?_
  · exact .bind (keepsActivity_modTcb fun _ => rfl) fun _ => keepsActivity_setSendLinks
  · exact keepsActivity_modTcb fun _ => rfl

theorem keepsActivity_absoluteTime {t : Time} : KeepsActivity (absoluteTime t) := by
  unfold absoluteTime
  split
  · exact .trap _
  · split
    · exact .pure _
    · exact .bind (.gets _) fun _ => .pure _

theorem keepsActivity_timeLt {t₁ t₂ : Time} : KeepsActivity (timeLt t₁ t₂) := by
  unfold timeLt
  refine .bind keepsActivity_absoluteTime fun _ => ?_
  exact .bind keepsActivity_absoluteTime fun _ => .pure _

theorem keepsActivity_calculateErrorcodes :
    KeepsActivity (calculateErrorcodes reason p q) :=
  keeps_calculateErrorcodes.comp KState.activity

theorem keepsActivity_setIpcError {err : Word} : KeepsActivity (setIpcError p tag err) := by
  unfold setIpcError setTag setMr setErrorCode
  exact .bind keepsActivity_modUtcb fun _ => keepsActivity_modUtcb

theorem preservesSound_restoreState (hp : A p) :
    Preserves (KState.Sound A C) (restoreState p) := by
  unfold restoreState restoreRegisters setErrorCode
  refine .bind (.bind (.gets _) fun _ => preservesSound_modUtcb) fun _ => ?_
  refine .bind ?_ fun _ => .bind (.gets _) fun _ => .bind preservesSound_modUtcb fun _ => ?_
  · refine preservesSound_modTcb hp fun c hc ha => ?_
    have hused := hc.used_savedState ha
    exact ⟨ha, rfl, hused.1, hc.setStates ha hused hused⟩
  · refine preservesSound_modTcb hp fun c hc ha => ?_
    have hused := hc.used_state ha
    exact ⟨ha, rfl, hused.1, hc.setStates ha hused ThreadState.used_aborted⟩

theorem preservesSound_abortPartner {err : Word} (hp : A p) :
    Preserves (KState.Sound A C) (abortPartner p tag err) := by
  unfold abortPartner setErrorCode setTag setMr notify
  refine .bind preservesSound_modUtcb fun _ => .bind preservesSound_modUtcb fun _ => ?_
  refine .bind (preservesSound_setState hp (by decide)) fun _ => ?_
  refine .bind (preservesSound_pushFrame fun _ => trivial) fun _ => ?_
  exact preservesSound_enqueueReady hp

/-- An activated thread is unwound. -/
theorem preservesSound_unwindLoop (hp : A p) (n : Nat) : ∀ {tag : MsgTag},
    Preserves (KState.Sound A C) (unwindLoop p reason n tag) := by
  induction n with
  | zero => exact .trap _
  | succ n ih =>
    intro tag
    have hredo : ∀ {tag' : MsgTag},
        Preserves (KState.Sound A C) (do restoreState p; unwindLoop p reason n tag') :=
      .bind (preservesSound_restoreState hp) fun _ => ih
    have herr : ∀ {tag' : MsgTag} {err : Word},
        Preserves (KState.Sound A C) (setIpcError p tag' err) :=
      keepsActivity_setIpcError.preserves
    have hlast : ∀ {b : Bool} {tag' tag'' : MsgTag} {err : Word}, Preserves (KState.Sound A C)
        (if b = true then do
          restoreState p
          unwindLoop p reason n tag'
        else setIpcError p tag'' err) := by
      intro b _ _ _
      cases b with
      | true => exact hredo
      | false => exact herr
    unfold unwindLoop
    refine Leads.read fun s hs => .after (preservesSound_setState hp (by decide)) fun _ => ?_
    refine .read fun r _ => .read fun r' _ => ?_
    have hstate : (s.tcb p).state ≠ .waitingTunneledPf := (hs.tcb p).state
    dsimp only
    cases hst : (s.tcb p).state with
    | lockedRunningIpcDone =>
      simp +decide only [ite_true, ite_false]
      exact hredo
    | lockedRunning =>
      simp +decide only [ite_true, ite_false]
      refine .after keepsActivity_calculateErrorcodes.preserves fun _ => ?_
      refine .read fun u hu => .read fun _ _ => ?_
      split
      · rename_i hG
        have hpartner : A (getTcb (r.tcb p).partner) := hu.of_state (by rw [hG.1]; decide)
        exact .after (preservesSound_abortPartner hpartner) fun _ => hlast
      · exact hlast
    | lockedWaiting =>
      simp +decide only [ite_true, ite_false]
      refine .after keepsActivity_calculateErrorcodes.preserves fun _ => .read fun u hu => ?_
      dsimp only
      split
      · rename_i hG
        have hpartner : A (getTcb (r.tcb p).partner) := hu.of_state (by rw [hG]; decide)
        exact .after (preservesSound_abortPartner hpartner) fun _ => hlast
      · exact hlast
    | lockedRunningNested =>
      simp +decide only [ite_true, ite_false]
      refine .after keepsActivity_calculateErrorcodes.preserves fun _ => .read fun u hu => ?_
      dsimp only
      split
      · rename_i hG
        exact absurd hG (hu.tcb _).state
      · exact herr
    | waitingTunneledPf => exact absurd hst hstate
    | waitingForever | waitingTimeout =>
      simp +decide only [ite_true, ite_false]
      exact .after preservesSound_cancelTimeout fun _ => hlast
    | polling =>
      simp +decide only [ite_true, ite_false]
      refine .after preservesSound_cancelTimeout fun _ => ?_
      exact .after keepsActivity_dequeueSend.preserves fun _ => hlast
    | zero | running | halted | aborted =>
      simp +decide only [ite_false]
      exact Preserves.pure _

theorem preservesSound_unwind (hp : A p) : Preserves (KState.Sound A C) (unwind p reason) := by
  unfold unwind getTag getMr
  refine .bind ?_ fun _ => preservesSound_unwindLoop hp 3
  exact .bind (.bind (KeepsActivity.preserves keeps_readUtcb) fun _ => .pure _) fun _ => .pure _

theorem preservesSound_handleIpcError (hp : A p) :
    Preserves (KState.Sound A C) (handleIpcError p) := by
  unfold handleIpcError restoreRegisters
  refine Leads.after (preservesSound_of_eq fun _ => rfl) fun _ => .read fun s hs => ?_
  split
  · refine .after (.bind (.gets _) fun _ => preservesSound_modUtcb) fun _ => ?_
    refine .after ?_ fun _ => preservesSound_returnToUser
    refine preservesSound_modTcb hp fun c hc ha => ?_
    have hused := hc.used_savedState ha
    exact ⟨ha, rfl, hused.1, hc.setStates ha hused ThreadState.used_aborted⟩
  · refine .after ?_ fun _ => preservesSound_returnToUser
    refine preservesSound_modTcb hp fun c hc ha => ?_
    have hused := hc.used_state ha
    exact ⟨ha, rfl, hused.1, hc.setStates ha hused ThreadState.used_aborted⟩

theorem preservesSound_handleIpcTimeout {st : ThreadState} (hp : A p) (hst : st.Used) :
    Preserves (KState.Sound A C) (handleIpcTimeout p st) := by
  unfold handleIpcTimeout
  refine .bind (preservesSound_setState hp hst) fun _ => ?_
  refine .bind (preservesSound_unwind hp) fun _ => ?_
  refine .bind (preservesSound_setState hp (by decide)) fun _ => ?_
  exact preservesSound_handleIpcError hp

theorem preservesSound_threadStartup (hp : A p) :
    Preserves (KState.Sound A C) (threadStartup p) := by
  unfold threadStartup getMr
  refine .bind ?_ fun _ => .bind ?_ fun _ => preservesSound_modTcb hp fun c hc ha => ?_
  · exact .bind (KeepsActivity.preserves keeps_readUtcb) fun _ => .pure _
  · exact .bind (KeepsActivity.preserves keeps_readUtcb) fun _ => .pure _
  · have hused := hc.used_state ha
    exact ⟨ha, rfl, hused.1, hc.setStates ha hused ThreadState.used_aborted⟩

end Unwind

/-! ## Transfers -/

section Transfer

variable {x : Xfer}

/-- A finished transfer leaves no timeout of the sender. -/
def XferResult.Settles (A C : TcbPtr → Prop) (p : TcbPtr) : XferResult → KState → Prop
  | .more _, t => t.Sound A C
  | .done _, t => t.Sound A (fun q => C q ∨ q = p)

theorem leads_more : Leads (KState.Sound A C) (pure (.more x) : Kernel XferResult)
    (XferResult.Settles A C p) := .pure fun _ h => h

theorem leads_messageOverflow :
    Leads (KState.Sound A C) (messageOverflow p q x) (XferResult.Settles A C p) := by
  unfold messageOverflow setErrorCode
  refine .bind leads_cancelTimeout fun _ => .after preservesSound_modUtcb fun _ => ?_
  exact .after preservesSound_modUtcb fun _ => .pure fun _ h => h

theorem leads_transferDone :
    Leads (KState.Sound A C) (transferDone p x) (XferResult.Settles A C p) := by
  unfold transferDone
  refine .bind leads_cancelTimeout fun _ => .after ?_ fun _ => .pure fun _ h => h
  exact preservesSound_of_eq fun _ => rfl

@[grind ←] theorem keepsActivity_copyMr {i : Nat} : KeepsActivity (copyMr p q i) := by
  unfold copyMr
  grind

theorem preservesSound_getMr {i : Nat} : Preserves (KState.Sound A C) (getMr p i) :=
  .bind (KeepsActivity.preserves keeps_readUtcb) fun _ => .pure _

theorem preservesSound_getBr {i : Nat} : Preserves (KState.Sound A C) (getBr p i) :=
  .bind (KeepsActivity.preserves keeps_readUtcb) fun _ => .pure _

theorem leads_stringItem {item : MsgItem} :
    Leads (KState.Sound A C) (stringItem p q x item) (XferResult.Settles A C p) := by
  unfold stringItem
  refine .after keepsActivity_copyMr.preserves fun _ => ?_
  split
  · exact leads_messageOverflow
  · refine .after preservesSound_getMr fun _ => .after preservesSound_getBr fun _ => ?_
    dsimp only
    split
    · exact leads_messageOverflow
    · refine .after preservesSound_getBr fun _ => ?_
      split
      · exact leads_messageOverflow
      · exact leads_more

theorem leads_transferItem :
    Leads (KState.Sound A C) (transferItem p q x) (XferResult.Settles A C p) := by
  unfold transferItem
  split
  · refine .after preservesSound_getMr fun _ => ?_
    dsimp only
    split
    · refine .after preservesSound_getBr fun _ => ?_
      split
      · exact leads_messageOverflow
      · refine .after keepsActivity_copyMr.preserves fun _ => ?_
        exact .after keepsActivity_copyMr.preserves fun _ => leads_more
    · split
      · exact leads_stringItem
      · exact leads_messageOverflow
  · exact leads_transferDone

theorem leads_startCopy {c : StringCopy} :
    Leads (KState.Sound A C) (startCopy p q x c) (XferResult.Settles A C p) := by
  unfold startCopy
  refine .after keepsActivity_copyMr.preserves fun _ => ?_
  refine .after (.gets _) fun _ => .after (.gets _) fun _ => ?_
  split
  · exact .trap _
  · exact .after (preservesSound_of_eq fun _ => rfl) fun _ => leads_more

theorem preservesSound_skipBuffer (n : Nat) : ∀ {i : Nat} {item : MsgItem},
    Preserves (KState.Sound A C) (skipBuffer q n i item) := by
  induction n with
  | zero => exact .trap _
  | succ n ih =>
    intro i item
    unfold skipBuffer
    dsimp only
    split
    · exact .pure _
    · split
      · exact .bind preservesSound_getBr fun _ => ih
      · exact .pure _

theorem leads_nextBuffer {c : StringCopy} :
    Leads (KState.Sound A C) (nextBuffer p q x c) (XferResult.Settles A C p) := by
  unfold nextBuffer
  split
  · exact leads_more
  · split
    · exact .after preservesSound_getBr fun _ => leads_more
    · split
      · dsimp only
        split
        · exact leads_messageOverflow
        · refine .after preservesSound_getBr fun _ => .after preservesSound_getBr fun _ => ?_
          split
          · exact leads_messageOverflow
          · exact leads_more
      · exact leads_messageOverflow

theorem leads_finishCopy {c : StringCopy} {copyLength len : Word} :
    Leads (KState.Sound A C) (finishCopy p q x c copyLength len)
      (XferResult.Settles A C p) := by
  unfold finishCopy
  refine .after (preservesSound_of_eq fun _ => rfl) fun _ => ?_
  dsimp only
  split
  · exact leads_messageOverflow
  · split
    · exact leads_nextBuffer
    · split
      · exact .after preservesSound_getMr fun _ => leads_nextBuffer
      · split
        · split
          · exact leads_messageOverflow
          · refine .after preservesSound_getMr fun _ => .after preservesSound_getMr fun _ => ?_
            split
            · exact leads_messageOverflow
            · exact leads_nextBuffer
        · exact .after (preservesSound_skipBuffer _) fun _ => leads_more

theorem leads_transferStep :
    Leads (KState.Sound A C) (transferStep p q x) (XferResult.Settles A C p) := by
  unfold transferStep
  split
  · exact leads_transferItem
  · exact leads_startCopy
  · exact leads_finishCopy

theorem preservesSound_extendedTransfer {tag : MsgTag} (hp : A p) (hq : A q) :
    Preserves (KState.Sound A C) (extendedTransfer p q tag) := by
  unfold extendedTransfer
  dsimp only
  split
  · exact .trap _
  · refine .bind (preservesSound_setState hp (by decide)) fun _ => ?_
    refine .bind (preservesSound_setState hq (by decide)) fun _ => .bind (.gets _) fun _ => ?_
    refine .bind (preservesSound_of_eq fun _ => rfl) fun _ => ?_
    refine .bind (preservesSound_of_eq fun _ => rfl) fun _ => ?_
    exact .bind preservesSound_getBr fun _ => .pure _

end Transfer

/-! ## IPC -/

/-- A blocking IPC with this timeout puts the thread into the wakeup queue. -/
def Time.IsFinite (t : Time) : Prop := t.isZero = false ∧ t.isNever = false

instance (t : Time) : Decidable t.IsFinite := inferInstanceAs (Decidable (_ ∧ _))

section Ipc

variable {toTid fromTid senderId : ThreadId} {timeout : Timeout} {o : Option TcbPtr}

/-- The state after an IPC: any thread may have a timeout. -/
abbrev KState.SoundAfter (A : TcbPtr → Prop) (s : KState) : Prop := s.Sound A fun _ => False

theorem KState.Sound.after (h : s.Sound A C) : s.SoundAfter A := h.forget fun _ => False.elim

/-- The end of a computation that needs no more to know who has a timeout. -/
theorem leads_after {x : Kernel α} (h : Preserves (KState.Sound A C) x) :
    Leads (KState.Sound A C) x (fun _ t => t.SoundAfter A) :=
  fun s a t hs hx => (h s a t hs hx).after

theorem preservesSound_returnIpc {tid : ThreadId} :
    Preserves (KState.Sound A C) (returnIpc p tid) := by
  unfold returnIpc
  exact preservesSound_of_eq fun _ => rfl

/-- A receive without a timeout to wait for. -/
theorem preservesSound_receiveZero (hp : A p) (ho : ∀ q, o = some q → A q) :
    Preserves (KState.Sound A C) (do
      setTag p .errorTag
      setState p .running
      returnIpc p .nilthread
      match o with
      | some toTcb =>
        enqueueReady p false
        switchTo toTcb
      | none => pure ()) := by
  refine .bind preservesSound_setTag fun _ => ?_
  refine .bind (preservesSound_setState hp (by decide)) fun _ => ?_
  refine .bind preservesSound_returnIpc fun _ => ?_
  cases o with
  | none => exact .pure _
  | some q =>
    exact .bind (preservesSound_enqueueReady hp) fun _ => preservesSound_switchTo (ho q rfl)

theorem leads_receiveBlocking (hp : A p) (ho : ∀ q, o = some q → A q)
    (hC : timeout.getRcv.IsFinite → C p) :
    Leads (KState.Sound A C) (receiveBlocking p o fromTid timeout)
      (fun _ t => t.SoundAfter A) := by
  unfold receiveBlocking
  dsimp only
  have hzero := preservesSound_receiveZero (C := C) hp ho
  have hblock : ∀ {C' : TcbPtr → Prop} {st : ThreadState}, st.Used →
      Preserves (KState.Sound A C') (do
        setState p st
        setPartner p fromTid
        pushFrame p .recvBlocked
        switchTo (o.getD .idle)) := by
    intro C' st hst
    refine .bind (preservesSound_setState hp hst) fun _ => ?_
    refine .bind preservesSound_setPartner fun _ => ?_
    refine .bind (preservesSound_pushFrame fun _ => trivial) fun _ => ?_
    exact preservesSound_switchTo_getD ho
  cases hnever : timeout.getRcv.isNever with
  | true =>
    simp only [Bool.not_true, Bool.false_eq_true, if_false]
    split
    · exact leads_after hzero
    · exact leads_after (hblock (by decide))
  | false =>
    simp only [Bool.not_false, if_true]
    refine .after preservesSound_setErrorCode fun _ => ?_
    split
    · exact leads_after hzero
    · rename_i hz
      have hfinite : timeout.getRcv.IsFinite := ⟨by simpa using hz, hnever⟩
      refine .bind (leads_setTimeout hp (hC hfinite)) fun _ => ?_
      exact leads_after (hblock (by decide))

/-- A receive from a polling thread. -/
theorem preservesSound_receiveFrom (hp : A p) (hq : A q) (ho : ∀ q, o = some q → A q) :
    Preserves (KState.Sound A C) (receiveFrom p o q) := by
  unfold receiveFrom
  refine .bind (preservesSound_setState hq (by decide)) fun _ => ?_
  refine .bind (preservesSound_setState hp (by decide)) fun _ => ?_
  refine .bind (preservesSound_pushFrame fun _ => trivial) fun _ => ?_
  cases o with
  | none => exact preservesSound_switchTo hq
  | some r =>
    have hr := ho r rfl
    refine .bind keepsActivity_checkDispatchThread.preserves fun b => ?_
    cases b with
    | true =>
      refine .bind preservesSound_cancelTimeout fun _ => ?_
      exact .bind (preservesSound_enqueueReady hq) fun _ => preservesSound_switchTo hr
    | false =>
      refine .bind (preservesSound_setState hr (by decide)) fun _ => ?_
      exact .bind (preservesSound_enqueueReady hr) fun _ => preservesSound_switchTo hq

theorem preservesSound_receivePartner :
    Preserves (KState.Sound A C) (receivePartner p fromTid) := by
  unfold receivePartner
  refine .bind (.gets _) fun _ => ?_
  split
  · exact .pure _
  · refine .bind (.gets _) fun _ => ?_
    split
    · exact .pure _
    · exact .pure _

theorem leads_ipcReceive (hp : A p) (ho : ∀ q, o = some q → A q)
    (hC : timeout.getRcv.IsFinite → C p) :
    Leads (KState.Sound A C) (ipcReceive p o toTid fromTid timeout)
      (fun _ t => t.SoundAfter A) := by
  unfold ipcReceive
  split
  · refine .after preservesSound_setPartner fun _ => ?_
    refine .after (preservesSound_setState hp (by decide)) fun _ => ?_
    refine .after (preservesSound_pushFrame fun _ => trivial) fun _ => ?_
    cases o with
    | none =>
      intro s a t _ hrun
      cases hrun
    | some q => exact leads_after (preservesSound_switchTo (ho q rfl))
  · refine .after preservesSound_receivePartner fun r => ?_
    cases r with
    | none =>
      refine .after preservesSound_setTag fun _ => ?_
      exact leads_after (.bind preservesSound_setErrorCode fun _ => preservesSound_returnIpc)
    | some r =>
      cases r with
      | none => exact leads_receiveBlocking hp ho hC
      | some q =>
        refine .read fun s _ => .read fun s' hs' => ?_
        split
        · rename_i hpoll
          have hq : A q := by
            rw [pollsOn, Bool.and_eq_true] at hpoll
            exact hs'.of_state (ThreadState.not_resting (.inl hpoll.1))
          exact leads_after (preservesSound_receiveFrom hp hq ho)
        · exact leads_receiveBlocking hp ho hC

/-- The receiver of a message is made running or dispatched. -/
theorem preservesSound_sendOnly (hp : A p) (hq : A q) :
    Preserves (KState.Sound A C) (sendOnly p q) := by
  unfold sendOnly
  have hrest : Preserves (KState.Sound A C) (do
      setState p .running
      if ← checkDispatchThread p q then
        enqueueReady p false
        switchTo q
      else
        cancelTimeout q
        enqueueReady q false) := by
    refine .bind (preservesSound_setState hp (by decide)) fun _ => ?_
    refine .bind keepsActivity_checkDispatchThread.preserves fun b => ?_
    cases b with
    | true => exact .bind (preservesSound_enqueueReady hp) fun _ => preservesSound_switchTo hq
    | false => exact .bind preservesSound_cancelTimeout fun _ => preservesSound_enqueueReady hq
  refine .bind (.gets _) fun _ => ?_
  dsimp only
  split
  · exact .bind (preservesSound_setState hq (by decide)) fun _ => hrest
  · exact .bind (preservesSound_setState hq (by decide)) fun _ => hrest

theorem leads_sendFinished (hp : A p) (ho : ∀ q, o = some q → A q)
    (hC : timeout.getRcv.IsFinite → C p) :
    Leads (KState.Sound A C) (sendFinished p o toTid fromTid timeout)
      (fun _ t => t.SoundAfter A) := by
  unfold sendFinished
  split
  · refine .after preservesSound_returnIpc fun _ => ?_
    cases o with
    | none => exact leads_after (.pure _)
    | some q => exact leads_after (preservesSound_sendOnly hp (ho q rfl))
  · exact leads_ipcReceive hp ho hC

theorem preservesSound_getTag : Preserves (KState.Sound A C) (getTag p) :=
  .bind preservesSound_getMr fun _ => .pure _

theorem preservesSound_transferFailed (hq : A q) :
    Preserves (KState.Sound A C) (transferFailed p q toTid) := by
  unfold transferFailed
  refine .bind preservesSound_getTag fun _ => .bind preservesSound_setTag fun _ => ?_
  refine .bind (preservesSound_setState hq (by decide)) fun _ => ?_
  exact .bind (preservesSound_enqueueReady hq) fun _ => preservesSound_returnIpc

theorem leads_ipcTransfer (hp : A p) (hq : A q) (hC : timeout.getRcv.IsFinite → C p) :
    Leads (KState.Sound A C) (ipcTransfer p q toTid fromTid timeout senderId)
      (fun _ t => t.SoundAfter A) := by
  unfold ipcTransfer
  refine .after preservesSound_setPartner fun _ => .after preservesSound_getTag fun tag => ?_
  dsimp only
  generalize tag.clearReceiveFlags = tag
  have hitems : Leads (KState.Sound A C)
      (if tag.getTyped = 0 then do
        setTag q tag
        sendFinished p (some q) toTid fromTid timeout
      else do
        let x ← extendedTransfer p q tag
        pushFrame p (.transfer x toTid fromTid timeout)) (fun _ t => t.SoundAfter A) := by
    split
    · refine .after preservesSound_setTag fun _ => leads_sendFinished hp ?_ hC
      rintro q ⟨⟩
      exact hq
    · refine .after (preservesSound_extendedTransfer hp hq) fun _ => ?_
      exact leads_after (preservesSound_pushFrame fun _ => trivial)
  have hwords : Leads (KState.Sound A C)
      (if tag.getUntyped ≠ 0 then do
        copyMrs p q 1 tag.getUntyped
        if tag.getTyped = 0 then do
          setTag q tag
          sendFinished p (some q) toTid fromTid timeout
        else do
          let x ← extendedTransfer p q tag
          pushFrame p (.transfer x toTid fromTid timeout)
      else
        if tag.getTyped = 0 then do
          setTag q tag
          sendFinished p (some q) toTid fromTid timeout
        else do
          let x ← extendedTransfer p q tag
          pushFrame p (.transfer x toTid fromTid timeout)) (fun _ t => t.SoundAfter A) := by
    split
    · refine .after ?_ fun _ => hitems
      exact .bind (KeepsActivity.preserves keeps_readUtcb) fun _ => preservesSound_modUtcb
    · exact hitems
  split
  · exact .after (.gets _) fun _ => .after preservesSound_modUtcb fun _ => hwords
  · exact hwords

theorem preservesSound_ipcSenderId : Preserves (KState.Sound A C) (ipcSenderId p q) := by
  unfold ipcSenderId
  refine .bind (.gets _) fun _ => .bind preservesSound_getTag fun tag => ?_
  split
  · refine .bind (KeepsActivity.preserves keeps_readUtcb) fun _ => .bind (.gets _) fun _ => ?_
    refine .bind (.gets _) fun _ => ?_
    split
    · exact .pure _
    · exact .bind preservesSound_setTag fun _ => .pure _
  · exact .pure _

theorem leads_sendBlocking (hp : A p) (hC : timeout.getSnd.IsFinite → C p) :
    Leads (KState.Sound A C) (sendBlocking p q toTid fromTid timeout senderId)
      (fun _ t => t.SoundAfter A) := by
  unfold sendBlocking
  dsimp only
  split
  · refine .after (preservesSound_setState hp (by decide)) fun _ => ?_
    refine .after preservesSound_setTag fun _ => .after preservesSound_setErrorCode fun _ => ?_
    exact leads_after preservesSound_returnIpc
  · rename_i hzero
    have hrest : ∀ {C' : TcbPtr → Prop}, Preserves (KState.Sound A C') (do
        enqueueSend p q
        setPartner p toTid
        setState p .polling
        pushFrame p (.sendBlocked toTid fromTid timeout senderId)
        switchToIdle) := by
      intro C'
      refine .bind keepsActivity_enqueueSend.preserves fun _ => ?_
      refine .bind preservesSound_setPartner fun _ => ?_
      refine .bind (preservesSound_setState hp (by decide)) fun _ => ?_
      refine .bind (preservesSound_pushFrame fun _ => trivial) fun _ => ?_
      exact preservesSound_switchToIdle
    split
    · rename_i hnever
      have hfinite : timeout.getSnd.IsFinite := ⟨by simpa using hzero, by simpa using hnever⟩
      exact .bind (leads_setTimeout hp (hC hfinite)) fun _ => leads_after hrest
    · exact leads_after hrest

/-- The IPC system call of a thread that is not in the wakeup queue, if it has a timeout. -/
theorem leads_sysIpc (hC : timeout.getSnd.IsFinite ∨ timeout.getRcv.IsFinite → C p) :
    Leads (fun s => s.Sound A C ∧ s.currentTcb = p) (sysIpc toTid fromTid timeout)
      (fun _ t => t.SoundAfter A) := by
  refine .of_wp fun s h => ?_
  obtain ⟨h, rfl⟩ := h
  have hp : A s.currentTcb := h.current
  have hlead : Leads (KState.Sound A C)
      (if toTid.isNilthread = true then sendFinished s.currentTcb none toTid fromTid timeout
      else do
        let toTcb := getTcb toTid
        if (← readTcb toTcb).myselfGlobal ≠ toTid then
          setErrorCode s.currentTcb (ipcSndError errIpcNonExisting)
          setTag s.currentTcb .errorTag
          returnIpc s.currentTcb .nilthread
        else
          let senderId ← ipcSenderId s.currentTcb toTcb
          if waitsFor (← readTcb s.currentTcb) (← readTcb toTcb) senderId then
            ipcTransfer s.currentTcb toTcb toTid fromTid timeout senderId
          else sendBlocking s.currentTcb toTcb toTid fromTid timeout senderId)
      (fun _ t => t.SoundAfter A) := by
    split
    · exact leads_sendFinished hp nofun fun hf => hC (.inr hf)
    · refine .read fun _ _ => ?_
      split
      · refine .after preservesSound_setErrorCode fun _ => ?_
        exact leads_after (.bind preservesSound_setTag fun _ => preservesSound_returnIpc)
      · refine .after preservesSound_ipcSenderId fun _ => .read fun _ _ => .read fun s' hs' => ?_
        split
        · rename_i hwaits
          simp only [waitsFor, Bool.and_eq_true] at hwaits
          have hq : A (getTcb toTid) :=
            hs'.of_state (ThreadState.not_resting (.inr hwaits.1))
          exact leads_ipcTransfer hp hq fun hf => hC (.inr hf)
        · exact leads_sendBlocking hp fun hf => hC (.inl hf)
  rw [sysIpc, wp_bind, wp_getCurrentTcb]
  exact wp_iff_ok.mpr fun a t hrun => hlead s a t h hrun

theorem preservesSound_sysIpc_never :
    Preserves (KState.SoundAfter A) (sysIpc toTid fromTid .never) := by
  intro s a t hs hrun
  have hfinite : ¬(Timeout.never.getSnd.IsFinite ∨ Timeout.never.getRcv.IsFinite) := by decide
  exact leads_sysIpc (fun h => absurd h hfinite) s a t ⟨hs, rfl⟩ hrun

/-! ### Continuations -/

theorem leads_resumeSend (hp : A p) (hq : A (getTcb toTid)) :
    Leads (KState.Sound A C) (resumeSend p toTid fromTid timeout senderId)
      (fun _ t => t.SoundAfter A) := by
  unfold resumeSend
  refine .bind leads_cancelTimeout fun _ => ?_
  refine .after keepsActivity_dequeueSend.preserves fun _ => ?_
  exact leads_ipcTransfer hp hq fun _ => .inr rfl

theorem leads_resumeTransfer {x : Xfer} (hp : A p) (hq : A (getTcb toTid)) :
    Leads (KState.Sound A C) (resumeTransfer p x toTid fromTid timeout)
      (fun _ t => t.SoundAfter A) := by
  unfold resumeTransfer
  refine .bind leads_transferStep fun r => ?_
  cases r with
  | more x => exact leads_after (preservesSound_pushFrame fun _ => trivial)
  | done tag =>
    refine .after preservesSound_setTag fun _ => ?_
    split
    · exact leads_after (preservesSound_transferFailed hq)
    · refine leads_sendFinished hp ?_ fun _ => .inr rfl
      rintro q ⟨⟩
      exact hq

theorem preservesSound_resumeReceived (hp : A p) :
    Preserves (KState.Sound A C) (resumeReceived p) := by
  unfold resumeReceived
  refine .bind (preservesSound_setState hp (by decide)) fun _ => ?_
  exact .bind (.gets _) fun _ => preservesSound_returnIpc

theorem preservesSound_resumeRecvBlocked (hp : A p) :
    Preserves (KState.Sound A C) (resumeRecvBlocked p) :=
  .bind preservesSound_cancelTimeout fun _ => preservesSound_resumeReceived hp

end Ipc

/-! ## ExchangeRegisters -/

section Exregs

variable {a : ExregsArgs}

theorem keepsActivity_exregsWrite : KeepsActivity (exregsWrite p a) := by
  unfold exregsWrite setUserFlags
  grind

theorem preservesSound_exregsAbort (hp : A p) : Preserves (KState.Sound A C) (exregsAbort p) := by
  unfold exregsAbort
  refine .bind (preservesSound_unwind hp) fun _ => ?_
  refine .bind (preservesSound_setState hp (by decide)) fun _ => ?_
  refine .bind (preservesSound_pushFrame fun _ => trivial) fun _ => ?_
  exact preservesSound_enqueueReady hp

theorem preservesSound_exregsIpc (hp : A p) : Preserves (KState.Sound A C) (exregsIpc p a) := by
  unfold exregsIpc
  refine .bind (.bind (.gets _) fun _ => .pure _) fun _ => ?_
  split
  · split
    · exact .bind (preservesSound_exregsAbort hp) fun _ => .pure _
    · exact .pure _
  · split
    · split
      · exact .bind (preservesSound_exregsAbort hp) fun _ => .pure _
      · exact .pure _
    · exact .pure _

theorem preservesSound_exregsHalt (hp : A p) : Preserves (KState.Sound A C) (exregsHalt p a) := by
  unfold exregsHalt
  refine .bind (.bind (.gets _) fun _ => .pure _) fun _ => ?_
  split
  · split
    · refine .bind (preservesSound_setState hp (by decide)) fun _ => ?_
      exact .bind (preservesSound_enqueueReady hp) fun _ => .pure _
    · exact .pure _
  · split
    · refine .bind (preservesSound_setState hp (by decide)) fun _ => .bind (.gets _) fun _ => ?_
      split
      · exact .bind preservesSound_switchToIdle fun _ => .pure _
      · exact .pure _
    · exact .pure _

theorem preservesSound_performExregs (hp : A p) :
    Preserves (KState.Sound A C) (performExregs p a) := by
  unfold performExregs
  refine .bind (.gets _) fun _ => ?_
  refine .bind (KeepsActivity.preserves keeps_readUtcb) fun _ => ?_
  refine .bind keepsActivity_exregsWrite.preserves fun _ => ?_
  refine .bind (preservesSound_exregsIpc hp) fun _ => ?_
  exact .bind (preservesSound_exregsHalt hp) fun _ => .pure _

theorem preservesSound_sysExchangeRegisters :
    Preserves (KState.Sound A C) (sysExchangeRegisters a) := by
  refine .of_wp fun s h => ?_
  simp only [sysExchangeRegisters, wp_bind, wp_getCurrentTcb, wp_readTcb, wp_getCurrentSpace]
  split
  · rw [wp_bind]
    exact preservesSound_setErrorCode.wp h fun _ _ ht => ht
  · rename_i hdest
    obtain ⟨hutcb, hspace, -⟩ : _ ∧ _ ∧ _ := by simpa only [not_or] using hdest
    have hp : A (getTcb a.destTid) := by
      have hutcb : (s.tcb (getTcb a.destTid)).isActivated = true := by simpa using hutcb
      refine (h.activated _).mp ⟨hutcb, ?_⟩
      have hcur : s.current.space.isSome := ((h.activated _).mpr h.current).2
      rw [← not_not.mp hspace] at hcur
      exact hcur
    rw [wp_bind]
    exact (preservesSound_performExregs hp).wp h fun _ _ ht => ht

end Exregs

/-! ## Page faults and the timer -/

section Fault

variable {addr ip : Word} {access : Access}

theorem preservesSound_saveState (hp : A p) : Preserves (KState.Sound A C) (saveState p) := by
  unfold saveState
  refine .bind (KeepsActivity.preserves keeps_readUtcb) fun _ => ?_
  refine preservesSound_modTcb hp fun c hc ha => ?_
  have hused := hc.used_state ha
  exact ⟨ha, rfl, hused.1, hc.setStates ha hused hused⟩

theorem keepsActivity_setPagefaultMessage :
    KeepsActivity (setPagefaultMessage p addr ip access) := by
  unfold setPagefaultMessage setTag setMr setBr
  refine .bind keepsActivity_modUtcb fun _ => .bind keepsActivity_modUtcb fun _ => ?_
  exact .bind keepsActivity_modUtcb fun _ => keepsActivity_modUtcb

theorem preservesSound_sendPagefaultIpc (hp : A p) :
    Preserves (KState.SoundAfter A) (sendPagefaultIpc p addr ip access) := by
  unfold sendPagefaultIpc
  refine .bind (preservesSound_saveState hp) fun _ => ?_
  refine .bind keepsActivity_setPagefaultMessage.preserves fun _ => ?_
  refine .bind (KeepsActivity.preserves keeps_readUtcb) fun _ => ?_
  exact .bind (preservesSound_pushFrame fun _ => trivial) fun _ => preservesSound_sysIpc_never

/-- The timeout of a transfer is set for a thread that is not in the wakeup queue. -/
theorem leads_handleXferTimeouts (hp : A p) (hC : C p) :
    Leads (KState.Sound A C) (handleXferTimeouts p) (fun _ t => t.SoundAfter A) := by
  unfold handleXferTimeouts
  refine .after (.gets _) fun _ => ?_
  split
  · exact leads_after (.pure _)
  · refine .after (.bind (.gets _) fun _ => .pure _) fun _ => ?_
    refine .after (KeepsActivity.preserves keeps_readUtcb) fun _ => ?_
    refine .after (KeepsActivity.preserves keeps_readUtcb) fun _ => ?_
    dsimp only
    split
    · refine leads_after (.bind (preservesSound_handleIpcTimeout hp (by decide)) fun _ => .pure _)
    · split
      · refine .after keepsActivity_timeLt.preserves fun _ => ?_
        refine .bind (leads_setTimeout hp hC) fun _ => ?_
        exact leads_after (.bind (preservesSound_of_eq fun _ => rfl) fun _ => .pure _)
      · exact leads_after (.pure _)

theorem preservesSound_copyFault : Preserves (KState.Sound A C)
    (modTcb p fun c => { c with ipcCopy := { c.ipcCopy with copyFault := addr } }) :=
  preservesSound_of_eq fun _ => rfl

theorem wp_handlePagefault_sound {kernel : Bool} (h : s.Sound A C)
    (hC : s.current.hasXferTimeout = false → C s.currentTcb) :
    wp (fun _ => True) (handlePagefault addr ip access kernel)
      (fun _ t => t.SoundAfter A) s := by
  have hp : A s.currentTcb := h.current
  have hsend : ∀ {go : Bool}, Preserves (KState.SoundAfter A)
      (if go = true then do
        if !kernel then setPartner s.currentTcb .nilthread
        sendPagefaultIpc s.currentTcb addr ip access
      else pure ()) := by
    intro go
    cases go with
    | false => exact .pure _
    | true =>
      cases kernel with
      | true => exact preservesSound_sendPagefaultIpc hp
      | false => exact .bind preservesSound_setPartner fun _ => preservesSound_sendPagefaultIpc hp
  simp only [handlePagefault, wp_bind, wp_getCurrentTcb]
  split
  · exact trivial
  · simp only [isSigma0Space, wp_bind, wp_readTcb, wp_gets]
    split
    · exact h.after
    · simp only [getState, wp_bind, wp_readTcb, wp_pure]
      split
      · exact trivial
      · split
        · rw [wp_bind, wp_iff_ok]
          intro _ r hr
          have h1 : r.Sound A C := preservesSound_copyFault s _ r h hr
          have hflag : (r.tcb s.currentTcb).hasXferTimeout = s.current.hasXferTimeout := by
            cases hr
            simp [KState.current]
          rw [wp_bind, wp_iff_ok]
          intro go u hu
          have hu' : u.SoundAfter A := by
            cases hf : s.current.hasXferTimeout with
            | true =>
              have hsame : wp (fun _ => True) (handleXferTimeouts s.currentTcb)
                  (fun _ u => u = r) r := by
                rw [handleXferTimeouts, wp_bind, wp_readTcb, hflag, hf, if_pos rfl]
                exact rfl
              obtain rfl := wp_iff_ok.mp hsame go u hu
              exact h1.after
            | false => exact leads_handleXferTimeouts hp (hC hf) r go u h1 hu
          exact hsend.wp hu' fun _ _ ht => ht
        · exact hsend.wp h.after fun _ _ ht => ht

theorem preservesSound_resumePagefault (hp : A p) :
    Preserves (KState.Sound A C) (resumePagefault p) := by
  unfold resumePagefault
  refine .bind preservesSound_getTag fun _ => ?_
  split
  · exact .trap _
  · exact preservesSound_restoreState hp

theorem preservesSound_sendPreemptionIpc {time : Word} (hp : A p) :
    Preserves (KState.SoundAfter A) (sendPreemptionIpc p time) := by
  unfold sendPreemptionIpc setMr setBr
  refine .bind (preservesSound_saveState hp) fun _ => .bind preservesSound_setTag fun _ => ?_
  refine .bind preservesSound_modUtcb fun _ => .bind preservesSound_modUtcb fun _ => ?_
  refine .bind preservesSound_modUtcb fun _ => .bind (.gets _) fun _ => ?_
  exact .bind (preservesSound_pushFrame fun _ => trivial) fun _ => preservesSound_sysIpc_never

theorem preservesSound_reschedule (hp : A p) : Preserves (KState.Sound A C) (reschedule p) := by
  unfold reschedule
  refine .bind (preservesSound_enqueueReady hp) fun _ => ?_
  exact .bind (preservesSound_schedule hp) fun _ => .pure _

theorem preservesSound_resumePreemption (hp : A p) :
    Preserves (KState.Sound A C) (resumePreemption p) := by
  unfold resumePreemption
  refine .bind preservesSound_getTag fun _ => .bind (preservesSound_restoreState hp) fun _ => ?_
  split
  · exact .trap _
  · exact preservesSound_reschedule hp

theorem preservesSound_tickTimeslice (hp : A p) :
    Preserves (KState.Sound A C) (tickTimeslice p q) := by
  unfold tickTimeslice
  refine .bind (.gets _) fun _ => ?_
  split
  · exact .pure _
  · refine .bind (.gets _) fun _ => .bind keepsActivity_setQueueTimeslice.preserves fun _ => ?_
    split
    · exact .pure _
    · refine .bind (KeepsActivity.preserves keeps_readUtcb) fun _ => ?_
      refine .bind keepsActivity_delayPreemption.preserves fun _ => ?_
      split
      · refine .bind keepsActivity_setQueueTimeslice.preserves fun _ => ?_
        refine .bind (preservesSound_of_eq fun _ => rfl) fun _ => ?_
        exact .bind preservesSound_modUtcb fun _ => .pure _
      · exact .bind (preservesSound_endOfTimeslice hp) fun _ => .pure _

theorem preservesSound_chargeQuantum (hp : A p) :
    Preserves (KState.SoundAfter A) (chargeQuantum p) := by
  unfold chargeQuantum
  refine .bind (.gets _) fun _ => ?_
  split
  · exact preservesSound_reschedule hp
  · split
    · exact .bind (.gets _) fun _ => preservesSound_sendPreemptionIpc hp
    · split
      · refine .bind (preservesSound_of_eq fun _ => rfl) fun _ => preservesSound_reschedule hp
      · refine .bind (preservesSound_of_eq fun _ => rfl) fun _ => preservesSound_reschedule hp

theorem preservesSound_handleTimerInterrupt :
    Preserves (KState.SoundAfter A) handleTimerInterrupt := by
  unfold handleTimerInterrupt
  refine .bind keepsActivity_tickTime.preserves fun _ => ?_
  refine Leads.read fun s hs => ?_
  have hp : A s.currentTcb := hs.current
  refine .bind (leads_parseWakeupQueues hp) fun wakeup => .assume fun hw => ?_
  split
  · exact Preserves.pure _
  · refine Preserves.bind (preservesSound_tickTimeslice hp) fun b => ?_
    split
    · exact preservesSound_chargeQuantum hp
    · split
      · exact .pure _
      · exact .bind (preservesSound_preemptThread hp) fun _ => preservesSound_switchTo hw

end Fault

/-! ## Suspended activations -/

/-- What a frame of an activated thread needs: the receiver of a send is activated. -/
def Frame.Reaches (A : TcbPtr → Prop) : Frame → Prop
  | .sendBlocked toTid _ _ _ | .transfer _ toTid _ _ => A (getTcb toTid)
  | _ => True

theorem leads_runFrame {f : Frame} {space : Option SpacePtr} (hp : A p) (hspace : space.isSome)
    (hfits : f.Fits space) (hreach : f.Reaches A) :
    Leads (KState.SoundAfter A) (runFrame p f) (fun _ t => t.SoundAfter A) := by
  cases f with
  | sendBlocked => exact leads_resumeSend hp hreach
  | transfer => exact leads_resumeTransfer hp hreach
  | received => exact preservesSound_resumeReceived hp
  | recvBlocked => exact preservesSound_resumeRecvBlocked hp
  | pagefault => exact preservesSound_resumePagefault hp
  | preemption => exact preservesSound_resumePreemption hp
  | irqSent | irqIdle =>
    rw [show space = none from hfits] at hspace
    cases hspace
  | notify n =>
    cases n with
    | ipcError => exact preservesSound_handleIpcError hp
    | ipcTimeout st => exact preservesSound_handleIpcTimeout hp hfits
    | threadStartup => exact preservesSound_threadStartup hp
    | threadReturn => exact Preserves.pure _
    | irqThread =>
      rw [show space = none from hfits] at hspace
      cases hspace

theorem wp_resume_sound (h : s.SoundAfter A)
    (hreach : ∀ f ∈ s.current.stack.head?, f.Reaches A) :
    wp (fun _ => True) Kernel.resume (fun _ t => t.SoundAfter A) s := by
  rw [Kernel.resume, wp_bind, wp_getCurrentTcb, wp_bind, wp_readTcb]
  cases hst : (s.tcb s.currentTcb).stack with
  | nil => exact h
  | cons f rest =>
    have hframes : ∀ g ∈ f :: rest, g.Fits (s.tcb s.currentTcb).space := by
      rw [← hst]
      exact (h.tcb s.currentTcb).frames
    have hf : f.Reaches A := hreach f (by rw [KState.current, hst]; exact rfl)
    simp only [wp_bind, wp_modTcb]
    refine wp_iff_ok.mpr fun a t hrun => ?_
    refine leads_runFrame h.current ((h.activated _).mpr h.current).2 (hframes f (by simp)) hf
      _ a t ?_ hrun
    exact h.setTcb .rfl rfl ((h.tcb _).setStack fun g hg => hframes g (by simp [hg])) id

end L4Thread
