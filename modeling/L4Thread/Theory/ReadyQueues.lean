import L4Thread.Theory.FindNext

/-!
# Ready queues over runs

The ready queues from the initialisation of the scheduler on, under any sequence of the operations
that change them. What the initialisation leaves alone is the queue of the highest priority, and a
TCB that is initialised while it is queued stays linked.
-/

namespace L4Thread

open TrapM Kernel Ring

variable {s t m : KState} {p q : TcbPtr} {R : Int → List TcbPtr} {n : Int} {α : Type}

/-! ## Operations -/

/-- The operations on the ready queues, and those on TCBs. -/
inductive ReadyOp
  | enqueueReady (p : TcbPtr) (head : Bool)
  | dequeueReady (p : TcbPtr)
  | doSchedule (p : TcbPtr) (timeControl prio preemptionControl : Word)
  | endOfTimeslice (p : TcbPtr)
  | findNextThread
  | init (p : TcbPtr) (dest : ThreadId)
  | deleteTcb (p : TcbPtr)

namespace ReadyOp

def run : ReadyOp → Kernel Unit
  | enqueueReady p head => Kernel.enqueueReady p head
  | dequeueReady p => Kernel.dequeueReady p
  | doSchedule p timeControl prio preemptionControl =>
    Kernel.doSchedule p timeControl prio preemptionControl
  | endOfTimeslice p => Kernel.endOfTimeslice p
  | findNextThread => do
    let _ ← Kernel.findNextThread
  | init p dest => Kernel.init p dest
  | deleteTcb p => Kernel.deleteTcb p

/-- The assertion of `enqueue`: the idle thread is not put into a queue. -/
def Asserted : ReadyOp → Prop
  | enqueueReady p _ | doSchedule p _ _ _ | endOfTimeslice p => p ≠ .idle
  | _ => True

def Step (s : KState) (o : ReadyOp) (t : KState) : Prop := o.Asserted ∧ o.run s = .ok ((), t)

/-- The thread that is initialised is in no ready queue. -/
def Unqueued (s : KState) : ReadyOp → Prop
  | init p _ => (s.tcb p).queueState.ready = false
  | _ => True

end ReadyOp

namespace KState

/-- The memory before the initialisation: TCBs are zero, all else is arbitrary. The array of the
queues has no other members. -/
structure Blank (m : KState) : Prop where
  tcb (p : TcbPtr) : m.tcb p = .zero
  prioQueue (n : Int) : n < 0 ∨ L4Thread.maxPrio < n → m.prioQueue n = none

/-- The queues are circles of the threads whose bits are set, by priority, and `max_prio` is an
upper bound. -/
def HasReadyQueues (s : KState) : Prop := ∃ R, s.ReadyQueues R ∧ s.PrioBound R

/-- The invariant: priorities are not negative. -/
structure ReadyInv (s : KState) : Prop where
  queues : s.HasReadyQueues
  priority (p : TcbPtr) : 0 ≤ (s.tcb p).priority

end KState

/-! ## The initialisation -/

/-- Only the memory of the queue of the highest priority matters. -/
theorem hasReadyQueues_initPrioQueue (h : m.Blank) (hinit : initPrioQueue m = .ok ((), s)) :
    s.HasReadyQueues ↔ m.prioQueue maxPrio = none := by
  cases hinit
  constructor
  · rintro ⟨R, hR, -⟩
    have hempty : R maxPrio = [] := by
      apply List.eq_nil_iff_forall_not_mem.mpr
      intro p hp
      have hbit := ((hR.bit p maxPrio).mp hp).1
      simp [h.tcb p, Tcb.zero, QueueState.zero] at hbit
    have hhead := (hR.rings.ring maxPrio).head_eq
    rw [hempty] at hhead
    simpa using hhead
  · intro hnone
    refine ⟨fun _ => [], ⟨⟨fun n => ⟨?_, .nil⟩, fun hx => by cases hx⟩, fun p n => ?_,
      fun _ hidle => by cases hidle⟩, fun n p hp => by cases hp⟩
    · show (if 0 ≤ n ∧ n < maxPrio then none else m.prioQueue n) = none
      split
      · rfl
      · rcases eq_or_ne n maxPrio with rfl | hn
        · exact hnone
        · exact h.prioQueue n (by omega)
    · simp [h.tcb p, Tcb.zero, QueueState.zero]

/-! ## Computations outside the ready queues -/

/-- What a TCB has to do with the ready queues. -/
@[grind] def Tcb.lined (c : Tcb) : Bool × Int := (c.queueState.ready, c.priority)

/-- The part of the state that the ready queues are in. -/
structure ReadyPart where
  tcb : TcbPtr → Bool × Int
  readyList : TcbPtr → Link TcbPtr
  prioQueue : Int → Option TcbPtr
  maxPrio : Int

def KState.readyPart (s : KState) : ReadyPart :=
  ⟨fun p => (s.tcb p).lined, s.readyList, s.prioQueue, s.maxPrio⟩

theorem KState.ReadyInv.congr (h : s.ReadyInv) (ht : t.readyPart = s.readyPart) : t.ReadyInv := by
  simp only [KState.readyPart, ReadyPart.mk.injEq] at ht
  obtain ⟨htcb, hlist, hprio, hmax⟩ := ht
  have hp : ∀ p, (t.tcb p).queueState.ready = (s.tcb p).queueState.ready ∧
      (t.tcb p).priority = (s.tcb p).priority := by
    intro p
    simpa only [Tcb.lined, Prod.mk.injEq] using congrFun htcb p
  obtain ⟨⟨R, hR, hbound⟩, hpos⟩ := h
  refine ⟨⟨R, ⟨?_, fun p n => ?_, hR.idle⟩, ?_⟩, fun p => ?_⟩
  · rw [hlist, hprio]
    exact hR.rings
  · rw [(hp p).1, (hp p).2]
    exact hR.bit p n
  · rw [KState.PrioBound, hmax]
    exact hbound
  · rw [(hp p).2]
    exact hpos p

abbrev PreservesReady (x : Kernel α) : Prop := Preserves KState.ReadyInv x

theorem preservesReady_of_keeps {x : Kernel α} (h : Keeps KState.readyPart x) :
    PreservesReady x := fun s a t hs hx => hs.congr (h s a t hx)

theorem keepsReady_modTcb {f : Tcb → Tcb} (h : ∀ c, (f c).lined = c.lined) :
    Keeps KState.readyPart (modTcb p f) := by
  refine .modify fun s => ?_
  simp only [KState.readyPart, ReadyPart.mk.injEq, and_true]
  funext q
  rcases eq_or_ne q p with rfl | hq
  · simp [h]
  · simp [hq]

@[grind ←] theorem preservesReady_modTcb {f : Tcb → Tcb} (h : ∀ c, (f c).lined = c.lined) :
    PreservesReady (modTcb p f) := preservesReady_of_keeps (keepsReady_modTcb h)

@[grind ←] theorem preservesReady_readTcb : PreservesReady (readTcb p) := .gets _

theorem preservesReady_ofLinks {o : Option α} : PreservesReady (ofLinks o) :=
  preservesReady_of_keeps keeps_ofLinks

@[grind ←] theorem preservesReady_modUtcb {f : Utcb → Utcb} :
    PreservesReady (modUtcb p f) :=
  .bind (.of_keeps keeps_getUtcb) fun _ => preservesReady_of_keeps (.modify fun _ => rfl)

/-! ## Putting in and taking out -/

theorem getTcb_ne_idle (tid : ThreadId) : getTcb tid ≠ .idle := nofun

/-- A thread that is put in has its bit set. -/
theorem wp_enqueueReady_inv {b : Bool} (hp : p ≠ .idle) (h : s.ReadyInv) :
    wp (fun _ => True) (enqueueReady p b) (fun _ t =>
      t.ReadyInv ∧ (t.tcb p).queueState.ready = true) s := by
  obtain ⟨⟨R, hR, hbound⟩, hpos⟩ := h
  refine wp_mono (wp_enqueueReady_rings hR.rings hR.bit) ?_
  rintro _ t ⟨R', hrings, hmem, htcb, -, hmax, hnew⟩
  have hprio : ∀ q, (t.tcb q).priority = (s.tcb q).priority := by
    intro q
    rw [htcb]
    rcases eq_or_ne q p with rfl | hq
    · simp
    · simp [hq]
  refine ⟨⟨⟨R', ⟨hrings, readyBit_enqueued hR.bit hmem htcb, fun n hidle => ?_⟩,
    fun n q hq => ?_⟩, fun q => hprio q ▸ hpos q⟩, by rw [htcb, Function.update_self]⟩
  · rcases (hmem _ n).mp hidle with hn | ⟨rfl, -⟩
    · exact hR.idle n hn
    · exact hp rfl
  · have hold : ∀ {x n}, x ∈ R n → 0 ≤ n ∧ n ≤ t.maxPrio := fun hx =>
      ⟨(hbound _ _ hx).1, (hbound _ _ hx).2.trans hmax⟩
    rcases (hmem q n).mp hq with hq | ⟨rfl, rfl⟩
    · exact hold hq
    · cases hbit : (s.tcb q).queueState.ready with
      | true => exact hold ((hR.bit q _).mpr ⟨hbit, rfl⟩)
      | false => exact ⟨hpos q, hnew hbit⟩

@[grind ←] theorem preservesReady_enqueueReady {b : Bool} (hp : p ≠ .idle) :
    PreservesReady (enqueueReady p b) :=
  .of_wp fun _ h => wp_mono (wp_enqueueReady_inv hp h) fun _ _ ht => ht.1

/-- A thread that is taken out has its bit clear. -/
theorem wp_dequeueReady_inv (h : s.ReadyInv) : wp (fun _ => True) (dequeueReady p) (fun _ t =>
    t.ReadyInv ∧ (t.tcb p).queueState.ready = false) s := by
  obtain ⟨⟨R, hR, hbound⟩, hpos⟩ := h
  refine wp_mono (wp_dequeueReady_rings hR.rings hR.bit) ?_
  rintro _ t ⟨R', hrings, hmem, htcb, hlists⟩
  simp only [Prod.mk.injEq] at hlists
  have hprio : ∀ q, (t.tcb q).priority = (s.tcb q).priority := by
    intro q
    rw [htcb]
    rcases eq_or_ne q p with rfl | hq
    · simp
    · simp [hq]
  refine ⟨⟨⟨R', ⟨hrings, readyBit_dequeued hR.bit hmem htcb, fun n hidle => ?_⟩, fun n q hq => ?_⟩,
    fun q => hprio q ▸ hpos q⟩, ?_⟩
  · exact hR.idle n ((hmem _ n).mp hidle).1
  · rw [hlists.2.2.2]
    exact hbound n q ((hmem q n).mp hq).1
  · rw [htcb, Function.update_self]

@[grind ←] theorem preservesReady_dequeueReady : PreservesReady (dequeueReady p) :=
  .of_wp fun _ h => wp_mono (wp_dequeueReady_inv h) fun _ _ ht => ht.1

/-- A change of the priority of a thread that is in no queue. -/
theorem KState.ReadyInv.setTcb {c : Tcb} (h : s.ReadyInv)
    (hp : (s.tcb p).queueState.ready = false) (hbit : c.queueState.ready = false)
    (hprio : 0 ≤ c.priority) :
    KState.ReadyInv { s with tcb := Function.update s.tcb p c } := by
  obtain ⟨⟨R, hR, hbound⟩, hpos⟩ := h
  refine ⟨⟨R, ⟨hR.rings, fun q n => ?_, hR.idle⟩, hbound⟩, fun q => ?_⟩
  · rcases eq_or_ne q p with rfl | hq
    · simp [hR.bit, hp, hbit]
    · simp [hR.bit, hq]
  · rcases eq_or_ne q p with rfl | hq
    · simpa using hprio
    · simpa [hq] using hpos q

@[grind ←] theorem preservesReady_schedulePrio {prio : Word} (hp : p ≠ .idle) :
    PreservesReady (schedulePrio p prio) := by
  refine .of_wp fun s hs => ?_
  rw [schedulePrio, wp_bind, wp_readTcb, wp_ite]
  split
  · rw [wp_bind]
    refine wp_mono (wp_dequeueReady_inv hs) ?_
    rintro _ r ⟨hr, hbit⟩
    rw [wp_bind, setPriority, wp_modTcb]
    refine (preservesReady_enqueueReady hp).wp (hr.setTcb hbit hbit ?_) fun _ _ ht => ht
    exact Int.natCast_nonneg _
  · exact hs

@[grind ←] theorem preservesReady_setTotalQuantum {time : Time} :
    PreservesReady (setTotalQuantum p time) := preservesReady_modTcb fun _ => rfl

@[grind ←] theorem preservesReady_setTimesliceLength {time : Time} :
    PreservesReady (setTimesliceLength p time) := preservesReady_modTcb fun _ => rfl

@[grind ←] theorem preservesReady_setMaximumDelay {usec : BitVec 16} :
    PreservesReady (setMaximumDelay p usec) := preservesReady_modTcb fun _ => rfl

@[grind ←] theorem preservesReady_setSensitivePrio :
    PreservesReady (setSensitivePrio p n) := preservesReady_modTcb fun _ => rfl

theorem preservesReady_scheduleTime {quantum timeslice : Time} (hp : p ≠ .idle) :
    PreservesReady (scheduleTime p quantum timeslice) := by
  unfold scheduleTime
  grind

theorem preservesReady_schedulePreemption {maxDelay : BitVec 16} :
    PreservesReady (schedulePreemption p maxDelay n) := by
  unfold schedulePreemption
  grind

theorem preservesReady_doSchedule {timeControl prio preemptionControl : Word} (hp : p ≠ .idle) :
    PreservesReady (doSchedule p timeControl prio preemptionControl) := by
  unfold doSchedule
  refine .bind (preservesReady_schedulePrio hp) fun _ => ?_
  have hrest : PreservesReady (if preemptionControl ≠ BitVec.allOnes 64 then
      schedulePreemption p ((preemptionControl &&& 0xffff).setWidth 16)
        ((preemptionControl >>> 16) &&& 0xff).toNat else pure ()) := by
    split
    · exact preservesReady_schedulePreemption
    · exact .pure _
  dsimp only
  by_cases ht : timeControl ≠ BitVec.allOnes 64
  · rw [if_pos ht]
    exact .bind (preservesReady_scheduleTime hp) fun _ => hrest
  · rw [if_neg ht]
    exact hrest

/-! ## Round robin -/

/-- The head of a queue is moved on. -/
theorem KState.ReadyInv.setNext (h : s.ReadyInv) (hp : (s.tcb p).queueState.ready = true) :
    KState.ReadyInv { s with
      prioQueue := Function.update s.prioQueue (s.tcb p).priority (s.readyList p).next } := by
  obtain ⟨⟨R, hR, hbound⟩, hpos⟩ := h
  have hin : p ∈ R (s.tcb p).priority := (hR.bit p _).mpr ⟨hp, rfl⟩
  obtain ⟨x, hx, hnext⟩ := (hR.rings.ring _).cyc.next_mem hin
  obtain ⟨L, hL, hrings⟩ := hR.rings.setHead hx
  have hmem : ∀ q n, q ∈ Function.update R (s.tcb p).priority L n ↔ q ∈ R n := by
    intro q n
    rcases eq_or_ne n (s.tcb p).priority with rfl | hn
    · rw [Function.update_self, hL.mem_iff]
    · rw [Function.update_of_ne hn]
  rw [hnext]
  refine ⟨⟨_, ⟨hrings, fun q n => ?_, fun n hidle => ?_⟩, fun n q hq => ?_⟩, hpos⟩
  · rw [hmem]
    exact hR.bit q n
  · exact hR.idle n ((hmem _ n).mp hidle)
  · exact hbound n q ((hmem q n).mp hq)

theorem preservesReady_endOfTimeslice (hp : p ≠ .idle) : PreservesReady (endOfTimeslice p) := by
  refine .of_wp fun s hs => ?_
  rw [endOfTimeslice, wp_bind]
  refine wp_mono (wp_enqueueReady_inv hp hs) ?_
  rintro _ r ⟨hr, hbit⟩
  rw [wp_bind, wp_readTcb, wp_bind, wp_gets, wp_bind, setPrioQueue, wp_modify]
  refine Preserves.wp ?_ (hr.setNext hbit) fun _ _ ht => ht
  refine .bind (.gets _) fun _ => .bind (preservesReady_modTcb fun _ => rfl) fun _ => ?_
  refine .bind (.gets _) fun _ => .bind preservesReady_ofLinks fun _ => .bind (.gets _) fun _ => ?_
  exact preservesReady_of_keeps (.modify fun _ => rfl)

/-! ## The search -/

theorem keeps_priority_dequeueReady :
    Keeps (fun s : KState => fun p => (s.tcb p).priority) (dequeueReady q) := by
  unfold dequeueReady
  refine .bind (.gets _) fun c => ?_
  split
  · refine .bind (.gets _) fun s => .bind keeps_ofLinks fun h => .bind (.modify fun _ => rfl) ?_
    refine fun _ => .modify fun s => funext fun p => ?_
    rcases eq_or_ne p q with rfl | hp
    · simp
    · simp [hp]
  · exact .pure _

theorem keeps_priority_findRunnable {fuel : Nat} :
    Keeps (fun s : KState => fun p => (s.tcb p).priority) (findRunnable n fuel) := by
  induction fuel with
  | zero => exact .trap _
  | succ fuel ih =>
    unfold findRunnable
    refine .bind (.gets _) fun o => ?_
    cases o with
    | none => exact .pure _
    | some p =>
      refine .bind (.bind (.gets _) fun _ => .pure _) fun st => ?_
      split
      · exact .bind (.modify fun _ => rfl) fun _ => .bind (.modify fun _ => rfl) fun _ => .pure _
      · exact .bind keeps_priority_dequeueReady fun _ => ih

theorem keeps_priority_findNextThread :
    Keeps (fun s : KState => fun p => (s.tcb p).priority) findNextThread := by
  have hbelow (n : Nat) : Keeps (fun s : KState => fun p => (s.tcb p).priority) (findBelow n) := by
    induction n with
    | zero => exact .bind (.modify fun _ => rfl) fun _ => .pure _
    | succ n ih =>
      refine .bind keeps_priority_findRunnable fun o => ?_
      cases o with
      | some p => exact .pure p
      | none => exact ih
  exact .bind (.gets _) fun _ => hbelow _

theorem preservesReady_findNextThread : PreservesReady findNextThread := by
  intro s p t h hrun
  obtain ⟨R, hR, hbound⟩ := h.queues
  obtain ⟨q, t', R', hrun', hR', hbound', -⟩ := findNextThread_selects hR hbound
  obtain ⟨rfl, rfl⟩ := Prod.mk.inj (Except.ok.inj (hrun.symm.trans hrun'))
  refine ⟨⟨R', hR', hbound'⟩, fun x => ?_⟩
  rw [show (t.tcb x).priority = (s.tcb x).priority from
    congrFun (keeps_priority_findNextThread s p t hrun) x]
  exact h.priority x

/-! ## Deletion -/

@[grind ←] theorem preservesReady_cancelTimeout : PreservesReady (cancelTimeout p) := by
  unfold cancelTimeout
  refine .bind (.gets _) fun c => ?_
  split
  · refine .bind (.gets _) fun s => .bind preservesReady_ofLinks fun h => ?_
    refine .bind (preservesReady_of_keeps (.modify fun _ => rfl)) fun _ => ?_
    exact preservesReady_modTcb fun _ => rfl
  · exact .pure _

@[grind ←] theorem preservesReady_dequeueSend : PreservesReady (dequeueSend p q) := by
  unfold dequeueSend setSendQueue
  refine .bind (.gets _) fun s => .bind preservesReady_ofLinks fun h => ?_
  refine .bind (.bind (preservesReady_modTcb fun _ => rfl) fun _ => ?_) fun _ => ?_
  · exact preservesReady_of_keeps (.modify fun _ => rfl)
  · exact preservesReady_modTcb fun _ => rfl

@[grind ←] theorem preservesReady_abortPartner {tag : MsgTag} {err : Word} (hp : p ≠ .idle) :
    PreservesReady (abortPartner p tag err) := by
  unfold abortPartner setErrorCode setTag setMr setState notify pushFrame
  grind

theorem preservesReady_restoreState : PreservesReady (restoreState p) := by
  unfold restoreState restoreRegisters setErrorCode
  grind

theorem preservesReady_setIpcError {tag : MsgTag} {err : Word} :
    PreservesReady (setIpcError p tag err) := by
  unfold setIpcError setErrorCode setTag setMr
  grind

theorem preservesReady_calculateErrorcodes {reason : UnwindReason} :
    PreservesReady (calculateErrorcodes reason p q) :=
  preservesReady_of_keeps (keeps_calculateErrorcodes.comp KState.readyPart)

theorem preservesReady_unwindLoop {reason : UnwindReason} (n : Nat) : ∀ {tag : MsgTag},
    PreservesReady (unwindLoop p reason n tag) := by
  induction n with
  | zero => exact .trap _
  | succ n ih =>
    intro tag
    have hredo : ∀ {tag' : MsgTag},
        PreservesReady (do restoreState p; unwindLoop p reason n tag') :=
      .bind preservesReady_restoreState fun _ => ih
    have hlast : ∀ {b : Bool} {tag' tag'' : MsgTag} {err : Word}, PreservesReady
        (if b = true then do
          restoreState p
          unwindLoop p reason n tag'
        else setIpcError p tag'' err) := by
      intro b _ _ _
      cases b with
      | true => exact hredo
      | false => exact preservesReady_setIpcError
    unfold unwindLoop
    refine Leads.read fun s hs => .after (preservesReady_modTcb fun _ => rfl) fun _ => ?_
    refine .read fun r _ => .read fun r' _ => ?_
    have hpartner : getTcb (r.tcb p).partner ≠ .idle := getTcb_ne_idle _
    dsimp only
    cases hst : (s.tcb p).state with
    | lockedRunningIpcDone =>
      simp +decide only [ite_true, ite_false]
      exact hredo
    | waitingTunneledPf =>
      simp +decide only [ite_true, ite_false]
      refine .after preservesReady_calculateErrorcodes fun _ => ?_
      exact .after (preservesReady_abortPartner hpartner) fun _ => preservesReady_setIpcError
    | lockedRunning =>
      simp +decide only [ite_true, ite_false]
      refine .after preservesReady_calculateErrorcodes fun _ => ?_
      refine .read fun u hu => .read fun _ _ => ?_
      split
      · exact .after (preservesReady_abortPartner hpartner) fun _ => hlast
      · exact hlast
    | lockedWaiting =>
      simp +decide only [ite_true, ite_false]
      refine .after preservesReady_calculateErrorcodes fun _ => .read fun u hu => ?_
      dsimp only
      split
      · exact .after (preservesReady_abortPartner hpartner) fun _ => hlast
      · exact hlast
    | lockedRunningNested =>
      simp +decide only [ite_true, ite_false]
      refine .after preservesReady_calculateErrorcodes fun _ => .read fun u hu => ?_
      dsimp only
      split
      · exact .after (preservesReady_abortPartner hpartner) fun _ => preservesReady_setIpcError
      · exact preservesReady_setIpcError
    | waitingForever | waitingTimeout =>
      simp +decide only [ite_true, ite_false]
      exact .after preservesReady_cancelTimeout fun _ => hlast
    | polling =>
      simp +decide only [ite_true, ite_false]
      refine .after preservesReady_cancelTimeout fun _ => ?_
      exact .after preservesReady_dequeueSend fun _ => hlast
    | zero | running | halted | aborted =>
      simp +decide only [ite_false]
      exact Preserves.pure _

theorem preservesReady_unwind {reason : UnwindReason} : PreservesReady (unwind p reason) := by
  unfold unwind getTag getMr
  refine .bind ?_ fun _ => preservesReady_unwindLoop 3
  exact .bind (.bind (preservesReady_of_keeps keeps_readUtcb) fun _ => .pure _) fun _ => .pure _

theorem preservesReady_drainSendQueue (fuel : Nat) : PreservesReady (drainSendQueue p fuel) := by
  induction fuel with
  | zero => exact .trap _
  | succ fuel ih =>
    unfold drainSendQueue
    refine .bind (.gets _) fun c => ?_
    split
    · exact .pure _
    · exact .bind preservesReady_dequeueSend fun _ => ih

theorem preservesReady_deleteTcb : PreservesReady (deleteTcb p) := by
  unfold deleteTcb
  have hclear : PreservesReady (modTcb p fun c =>
      { c with
        myselfGlobal := .nilthread, myselfLocal := .nilthread
        space := none, state := .aborted }) := preservesReady_modTcb fun _ => rfl
  refine .bind (.gets _) fun c => ?_
  dsimp only
  split
  · refine .bind preservesReady_dequeueReady fun _ => .bind (.bind (.gets _) fun _ => .pure _) ?_
    intro state
    have hrest : PreservesReady (do
        drainSendQueue p numTcbs
        modTcb p fun c => { c with utcb := none }
        modTcb p fun c =>
          { c with
            myselfGlobal := .nilthread, myselfLocal := .nilthread
            space := none, state := .aborted }) :=
      .bind (preservesReady_drainSendQueue _) fun _ =>
        .bind (preservesReady_modTcb fun _ => rfl) fun _ => hclear
    split
    · exact .bind preservesReady_unwind fun _ => hrest
    · exact hrest
  · exact hclear

/-! ## Runs -/

theorem ReadyOp.Step.readyInv {o : ReadyOp} (h : s.ReadyInv) (hok : o.Unqueued s)
    (hstep : ReadyOp.Step s o t) : t.ReadyInv := by
  obtain ⟨hassert, hrun⟩ := hstep
  cases o with
  | enqueueReady p head => exact preservesReady_enqueueReady hassert s _ t h hrun
  | dequeueReady p => exact preservesReady_dequeueReady s _ t h hrun
  | doSchedule p tc prio pc => exact preservesReady_doSchedule hassert s _ t h hrun
  | endOfTimeslice p => exact preservesReady_endOfTimeslice hassert s _ t h hrun
  | findNextThread =>
    exact Preserves.bind preservesReady_findNextThread (fun _ => .pure _) s _ t h hrun
  | init p dest =>
    have hwp : wp (fun _ => True) (Kernel.init p dest) (fun _ t => t.ReadyInv) s :=
      wp_init.mpr (h.setTcb hok rfl (show 0 ≤ defaultPriority by decide))
    exact wp_iff_ok.mp hwp _ _ hrun
  | deleteTcb p => exact preservesReady_deleteTcb s _ t h hrun

/-- The initialisation of a TCB that is queued leaves it linked with its bit clear. -/
theorem not_hasReadyQueues_init {dest : ThreadId} (h : s.HasReadyQueues)
    (hp : (s.tcb p).queueState.ready = true) (hrun : Kernel.init p dest s = .ok ((), t)) :
    ¬t.HasReadyQueues := by
  rintro ⟨R', hR', -⟩
  obtain ⟨R, hR, -⟩ := h
  have hwp : wp (fun _ => True) (Kernel.init p dest) (fun _ t =>
      t.readyList = s.readyList ∧ t.prioQueue = s.prioQueue ∧
        (t.tcb p).queueState.ready = false) s := wp_init.mpr ⟨rfl, rfl, by simp [Tcb.init]; rfl⟩
  obtain ⟨hlist, hprio, hbit⟩ := wp_iff_ok.mp hwp _ _ hrun
  have hin : p ∈ R (s.tcb p).priority := (hR.bit p _).mpr ⟨hp, rfl⟩
  have hmember := (hR.rings.ring _).member_iff.mpr hin
  rw [← hlist, ← hprio] at hmember
  have hin' := (hR'.rings.ring _).member_iff.mp hmember
  rw [((hR'.bit p _).mp hin').1] at hbit
  cases hbit

/-- Only the initialisation of a TCB that is queued breaks the queues. -/
theorem ReadyOp.Step.hasReadyQueues_iff {o : ReadyOp} (h : s.ReadyInv)
    (hstep : ReadyOp.Step s o t) : t.HasReadyQueues ↔ o.Unqueued s := by
  constructor
  · intro ht
    cases o with
    | init p dest =>
      show (s.tcb p).queueState.ready = false
      by_contra hp
      rw [Bool.not_eq_false] at hp
      exact not_hasReadyQueues_init h.queues hp hstep.2 ht
    | _ => trivial
  · exact fun hok => (hstep.readyInv h hok).queues

/-- The states of the runs from the initialisation on whose initialised TCBs are in no queue. -/
abbrev ReadyReach (m : KState) : KState → Prop :=
  Run.Reach (fun s => initPrioQueue m = .ok ((), s)) ReadyOp.Step fun s o => o.Unqueued s

theorem readyInv_initPrioQueue (hm : m.Blank) (hnone : m.prioQueue maxPrio = none)
    (hinit : initPrioQueue m = .ok ((), s)) : s.ReadyInv := by
  refine ⟨(hasReadyQueues_initPrioQueue hm hinit).mpr hnone, fun p => ?_⟩
  cases hinit
  show 0 ≤ (m.tcb p).priority
  rw [hm.tcb p]
  exact Int.le_refl 0

theorem ReadyReach.readyInv (hm : m.Blank) (hnone : m.prioQueue maxPrio = none)
    (h : ReadyReach m s) : s.ReadyInv :=
  h.invariant (fun _ hs => readyInv_initPrioQueue hm hnone hs) fun _ _ _ hs hok hstep =>
    ReadyOp.Step.readyInv hs hok hstep

/-- The ready queues are kept along all runs in which no queued TCB is initialised if and only if
the memory that the initialisation does not reach is empty; and then a step breaks them if and only
if it initialises a queued TCB. -/
theorem readyReach_hasReadyQueues_iff (hm : m.Blank) :
    ((∀ s, ReadyReach m s → s.HasReadyQueues) ↔ m.prioQueue maxPrio = none) ∧
      (m.prioQueue maxPrio = none → ∀ s o t, ReadyReach m s → ReadyOp.Step s o t →
        (t.HasReadyQueues ↔ o.Unqueued s)) := by
  refine ⟨⟨fun hall => ?_, fun hnone s h => (h.readyInv hm hnone).queues⟩, ?_⟩
  · obtain ⟨s, hs⟩ : ∃ s, initPrioQueue m = .ok ((), s) := ⟨_, rfl⟩
    exact (hasReadyQueues_initPrioQueue hm hs).mp (hall s (.init hs))
  · exact fun hnone s o t h hstep => hstep.hasReadyQueues_iff (h.readyInv hm hnone)

/-- A memory with a pointer in the queue of the highest priority. -/
def KState.staleQueue : KState :=
  { KState.zero .sample with
    prioQueue := fun n => if n = L4Thread.maxPrio then some .idle else none }

theorem KState.blank_of_tcb (htcb : m.tcb = fun _ => .zero)
    (hprio : ∀ n, n ≠ L4Thread.maxPrio → m.prioQueue n = none) : m.Blank where
  tcb p := by rw [htcb]
  prioQueue n hn := hprio n fun h => by
    subst h
    revert hn
    decide

/-- The initialisation leaves a pointer in the queue of the highest priority. -/
theorem exists_not_hasReadyQueues :
    ∃ m s, m.Blank ∧ initPrioQueue m = .ok ((), s) ∧ ¬s.HasReadyQueues := by
  have hblank : KState.staleQueue.Blank := KState.blank_of_tcb rfl fun n hn => if_neg hn
  refine ⟨KState.staleQueue, _, hblank, rfl, fun h => ?_⟩
  have hnone := (hasReadyQueues_initPrioQueue hblank rfl).mp h
  cases hnone

/-- A thread is put into its queue, and initialised again. -/
theorem exists_hasReadyQueues : ∃ m s t o, ReadyReach m s ∧ ReadyOp.Step s o t ∧
    s.HasReadyQueues ∧ ¬t.HasReadyQueues := by
  have hblank : (KState.zero .sample).Blank := KState.blank_of_tcb rfl fun _ _ => rfl
  obtain ⟨s, hs⟩ : ∃ s, initPrioQueue (KState.zero .sample) = .ok ((), s) := ⟨_, rfl⟩
  obtain ⟨t, ht, hbit⟩ : ∃ t, Kernel.enqueueReady (getTcb sigma0Tid) false s = .ok ((), t) ∧
      (t.tcb (getTcb sigma0Tid)).queueState.ready = true := by
    cases hs
    exact ⟨_, rfl, rfl⟩
  obtain ⟨u, hu⟩ : ∃ u, Kernel.init (getTcb sigma0Tid) sigma0Tid t = .ok ((), u) := ⟨_, rfl⟩
  have hreach : ReadyReach (.zero .sample) t :=
    .step (e := .enqueueReady (getTcb sigma0Tid) false) (.init hs) trivial ⟨nofun, ht⟩
  have hinit : ReadyOp.Step t (.init (getTcb sigma0Tid) sigma0Tid) u := ⟨trivial, hu⟩
  obtain ⟨hiff, hstep⟩ := readyReach_hasReadyQueues_iff hblank
  refine ⟨_, t, u, _, hreach, hinit, hiff.mpr rfl t hreach, fun h => ?_⟩
  have hfree : (t.tcb (getTcb sigma0Tid)).queueState.ready = false :=
    (hstep rfl _ _ u hreach hinit).mp h
  rw [hbit] at hfree
  cases hfree

end L4Thread
