import L4Thread.Theory.ReadyQueues

/-!
# Priorities

The priorities of the threads from the initialisation of the scheduler on, under `SYS_SCHEDULE`,
creations of threads and the kernel's own `set_priority` calls, with anything else in between that
leaves priorities alone. All indices of the ready queues are inside their array.
-/

namespace L4Thread

open TrapM Kernel Ring

variable {s t : KState} {p q : TcbPtr} {α β : Type}

/-! ## Operations -/

/-- The operations that set priorities, and those that use them as indices. -/
inductive PrioOp
  | schedule (dest : ThreadId) (timeControl prio preemptionControl : Word)
  | createInactive (p : TcbPtr) (dest scheduler : ThreadId)
  | createKernelThread (p : TcbPtr) (dest : ThreadId) (utcb : UtcbPtr)
  | setPriority (p : TcbPtr) (prio : Int)
  | enqueueReady (p : TcbPtr) (head : Bool)
  | dequeueReady (p : TcbPtr)
  | findNextThread
  /-- Everything else. -/
  | other

/-- The priorities of a thread. -/
@[grind] def Tcb.prios (c : Tcb) : Int × Int := (c.priority, c.sensitivePrio)

/-- The part of the state that the array is indexed by. -/
structure PrioPart where
  tcb : TcbPtr → Int × Int
  maxPrio : Int

def KState.prioPart (s : KState) : PrioPart := ⟨fun p => (s.tcb p).prios, s.maxPrio⟩

namespace PrioOp

/-- The kernel sets the priorities 0 and `MAX_PRIO`. -/
def Step (s : KState) (o : PrioOp) (t : KState) : Prop :=
  match o with
  | schedule dest timeControl prio preemptionControl =>
    ∃ r, sysSchedule dest timeControl prio preemptionControl s = .ok (r, t)
  | createInactive p dest scheduler => Kernel.createInactive p dest scheduler s = .ok ((), t)
  | createKernelThread p dest utcb => Kernel.createKernelThread p dest utcb s = .ok ((), t)
  | setPriority p prio => (prio = 0 ∨ prio = maxPrio) ∧ Kernel.setPriority p prio s = .ok ((), t)
  | enqueueReady p head => Kernel.enqueueReady p head s = .ok ((), t)
  | dequeueReady p => Kernel.dequeueReady p s = .ok ((), t)
  | findNextThread => ∃ r, Kernel.findNextThread s = .ok (r, t)
  | other => t.prioPart = s.prioPart

end PrioOp

/-- The state after `scheduler_t::init` in zeroed memory. -/
def KState.SchedulerInit (s : KState) : Prop :=
  ∃ m : KState, (∀ p, m.tcb p = .zero) ∧ initPrioQueue m = .ok ((), s)

/-- The states of the runs of the operations. -/
abbrev PrioReach : KState → Prop :=
  Run.Reach KState.SchedulerInit PrioOp.Step fun _ _ => True

/-! ## The invariant -/

/-- Priorities are in range and ordered. -/
def Tcb.InRange (c : Tcb) : Prop :=
  0 ≤ c.priority ∧ c.priority ≤ c.sensitivePrio ∧ c.sensitivePrio ≤ maxPrio

structure KState.PrioInv (s : KState) : Prop where
  tcb (p : TcbPtr) : (s.tcb p).InRange
  maxPrio : s.maxPrio ≤ L4Thread.maxPrio

theorem KState.PrioInv.congr (h : s.PrioInv) (ht : t.prioPart = s.prioPart) : t.PrioInv := by
  have htcb : ∀ p, (t.tcb p).prios = (s.tcb p).prios := fun p =>
    congrFun (congrArg PrioPart.tcb ht) p
  refine ⟨fun p => ?_, (congrArg PrioPart.maxPrio ht).le.trans h.maxPrio⟩
  obtain ⟨hprio, hsens⟩ := Prod.mk.inj (htcb p)
  rw [Tcb.InRange, hprio, hsens]
  exact h.tcb p

theorem KState.PrioInv.setTcb {c : Tcb} (h : s.PrioInv) (hc : c.InRange) :
    KState.PrioInv { s with tcb := Function.update s.tcb p c } := by
  refine ⟨fun q => ?_, h.maxPrio⟩
  rcases eq_or_ne q p with rfl | hq
  · simpa only [Function.update_self] using hc
  · simpa only [Function.update_of_ne hq] using h.tcb q

theorem Tcb.InRange.priority_le {c : Tcb} (h : c.InRange) : c.priority ≤ maxPrio :=
  h.2.1.trans h.2.2

abbrev PreservesPrio (x : Kernel α) : Prop := Preserves KState.PrioInv x

theorem preservesPrio_of_keeps {x : Kernel α} (h : Keeps KState.prioPart x) : PreservesPrio x :=
  fun s a t hs hx => hs.congr (h s a t hx)

theorem keepsPrio_modTcb {f : Tcb → Tcb} (h : ∀ c, (f c).prios = c.prios) :
    Keeps KState.prioPart (modTcb p f) := by
  refine .modify fun s => ?_
  rw [KState.prioPart, KState.prioPart, PrioPart.mk.injEq]
  refine ⟨funext fun q => ?_, rfl⟩
  rcases eq_or_ne q p with rfl | hq
  · exact (congrArg Tcb.prios (Function.update_self ..)).trans (h _)
  · exact congrArg Tcb.prios (Function.update_of_ne hq ..)

theorem keepsPrio_modUtcb {f : Utcb → Utcb} : Keeps KState.prioPart (modUtcb p f) :=
  .bind keeps_getUtcb fun _ => .modify fun _ => rfl

/-- The change of a TCB that leaves its priorities in range. -/
theorem preservesPrio_modTcb {f : Tcb → Tcb} (h : ∀ c, c.InRange → (f c).InRange) :
    PreservesPrio (modTcb p f) := .modify fun _ hs => hs.setTcb (h _ (hs.tcb p))

/-! ## Setting priorities -/

theorem preservesPrio_setPriority {prio : Int} (h₀ : 0 ≤ prio) (h₁ : prio ≤ maxPrio) :
    PreservesPrio (setPriority p prio) := by
  refine preservesPrio_modTcb fun c hc => ?_
  rw [Tcb.InRange]
  dsimp only
  split
  · exact ⟨h₀, Int.le_refl _, h₁⟩
  · next hlt => exact ⟨h₀, Int.not_lt.mp hlt, hc.2.2⟩

/-- `init_tcb` overwrites both. -/
theorem preservesPrio_initTcb : PreservesPrio (initTcb p) := by
  unfold initTcb
  refine .bind (preservesPrio_of_keeps (keepsPrio_modTcb fun _ => rfl)) fun _ => ?_
  refine .bind (preservesPrio_of_keeps (keepsPrio_modTcb fun _ => rfl)) fun _ => ?_
  have hdelay : PreservesPrio (setMaximumDelay p 0) :=
    preservesPrio_of_keeps (keepsPrio_modTcb fun _ => rfl)
  refine .of_wp fun s hs => ?_
  rw [wp_bind, setPriority, wp_modTcb, wp_bind, setSensitivePrio, wp_modTcb]
  refine hdelay.wp ⟨fun q => ?_, hs.maxPrio⟩ fun _ _ ht => ht
  rcases eq_or_ne q p with rfl | hq
  · simp only [Function.update_self]
    exact ⟨(by decide : (0 : Int) ≤ defaultPriority), Int.le_refl defaultPriority,
      (by decide : defaultPriority ≤ maxPrio)⟩
  · simp only [Function.update_of_ne hq]
    exact hs.tcb q

theorem preservesPrio_init {dest : ThreadId} : PreservesPrio (Kernel.init p dest) := by
  refine .bind (preservesPrio_modTcb fun _ h => h) fun _ => ?_
  exact .bind preservesPrio_initTcb fun _ => preservesPrio_modTcb fun _ h => h

theorem preservesPrio_createInactive {dest scheduler : ThreadId} :
    PreservesPrio (createInactive p dest scheduler) :=
  .bind preservesPrio_init fun _ => preservesPrio_modTcb fun _ h => h

theorem preservesPrio_createKernelThread {dest : ThreadId} {utcb : UtcbPtr} :
    PreservesPrio (createKernelThread p dest utcb) :=
  .bind preservesPrio_init fun _ => .bind (preservesPrio_modTcb fun _ h => h) fun _ =>
    preservesPrio_setPriority (Int.le_refl 0) (by decide)

/-! ## Queues -/

theorem preservesPrio_setReady {b : Bool} : PreservesPrio (setReady p b) :=
  preservesPrio_modTcb fun _ h => h

theorem preservesPrio_setReadyQueue {prio : Int} {h : Option TcbPtr} {l : TcbPtr → Link TcbPtr} :
    PreservesPrio (setReadyQueue prio h l) := preservesPrio_of_keeps (.modify fun _ => rfl)

theorem preservesPrio_setMaxPrio {prio : Int} (h : prio ≤ maxPrio) :
    PreservesPrio (setMaxPrio prio) := .modify fun _ hs => ⟨hs.tcb, h⟩

theorem preservesPrio_ofLinks {o : Option α} : PreservesPrio (ofLinks o) :=
  preservesPrio_of_keeps keeps_ofLinks

theorem preservesPrio_enqueueReady {b : Bool} : PreservesPrio (enqueueReady p b) := by
  refine .of_wp fun s hs => ?_
  rw [enqueueReady, wp_bind, wp_readTcb, wp_ite]
  split
  · exact hs
  · rw [wp_bind, wp_gets, wp_bind]
    refine preservesPrio_ofLinks.wp hs fun r t ht => ?_
    rw [wp_bind]
    refine preservesPrio_setReadyQueue.wp ht fun _ u hu => ?_
    rw [wp_bind]
    refine preservesPrio_setReady.wp hu fun _ v hv => ?_
    have hmax : max (s.tcb p).priority s.maxPrio ≤ maxPrio :=
      Int.max_le.mpr ⟨(hs.tcb p).priority_le, hs.maxPrio⟩
    exact (preservesPrio_setMaxPrio hmax).wp hv fun _ _ hw => hw

theorem preservesPrio_dequeueReady : PreservesPrio (dequeueReady p) := by
  refine .of_wp fun s hs => ?_
  rw [dequeueReady, wp_bind, wp_readTcb, wp_ite]
  split
  · rw [wp_bind, wp_gets, wp_bind]
    refine preservesPrio_ofLinks.wp hs fun r t ht => ?_
    rw [wp_bind]
    refine preservesPrio_setReadyQueue.wp ht fun _ u hu => ?_
    exact preservesPrio_setReady.wp hu fun _ _ hv => hv
  · exact hs

theorem preservesPrio_setPrioQueue {prio : Int} {h : Option TcbPtr} :
    PreservesPrio (setPrioQueue prio h) := preservesPrio_of_keeps (.modify fun _ => rfl)

theorem preservesPrio_findRunnable {prio : Int} (hprio : prio ≤ maxPrio) (fuel : Nat) :
    PreservesPrio (findRunnable prio fuel) := by
  induction fuel with
  | zero => exact .trap _
  | succ fuel ih =>
    refine .bind (.gets _) fun o => ?_
    cases o with
    | none => exact .pure _
    | some p =>
      refine .bind (.bind (.gets _) fun _ => .pure _) fun st => ?_
      split
      · exact .bind preservesPrio_setPrioQueue fun _ =>
          .bind (preservesPrio_setMaxPrio hprio) fun _ => .pure _
      · exact .bind preservesPrio_dequeueReady fun _ => ih

theorem preservesPrio_findBelow {n : Nat} (hn : (n : Int) ≤ maxPrio + 1) :
    PreservesPrio (findBelow n) := by
  induction n with
  | zero => exact .bind (preservesPrio_setMaxPrio (by decide)) fun _ => .pure _
  | succ n ih =>
    have hle : (n : Int) ≤ maxPrio := by
      rw [Int.natCast_succ] at hn
      exact Int.le_of_lt_add_one (Int.lt_of_lt_of_le (Int.lt_succ _) hn)
    refine .bind (preservesPrio_findRunnable hle _) fun o => ?_
    cases o with
    | some p => exact .pure p
    | none => exact ih (Int.le_trans hle (Int.le_of_lt (Int.lt_succ _)))

/-- The search starts inside the array. -/
theorem KState.PrioInv.toNat_maxPrio_le (h : s.PrioInv) :
    ((s.maxPrio + 1).toNat : Int) ≤ L4Thread.maxPrio + 1 := by
  have hmax := h.maxPrio
  have hconst : L4Thread.maxPrio = 255 := rfl
  omega

theorem preservesPrio_findNextThread : PreservesPrio findNextThread := by
  refine .of_wp fun s hs => ?_
  rw [findNextThread, wp_bind, wp_gets]
  exact (preservesPrio_findBelow hs.toNat_maxPrio_le).wp hs fun _ _ ht => ht

/-! ## The system call -/

/-- A byte is a priority. -/
theorem toNat_and_0xff_le (w : Word) : ((w &&& 0xff).toNat : Int) ≤ maxPrio := by
  have hle : (w &&& 0xff).toNat ≤ 255 := by
    rw [BitVec.toNat_and]
    exact Nat.and_le_right
  exact Int.ofNat_le.mpr hle

theorem preservesPrio_schedulePrio {prio : Word} : PreservesPrio (schedulePrio p prio) := by
  refine .of_wp fun s hs => ?_
  rw [schedulePrio, wp_bind, wp_readTcb, wp_ite]
  split
  · rw [wp_bind]
    refine preservesPrio_dequeueReady.wp hs fun _ t ht => ?_
    rw [wp_bind]
    refine (preservesPrio_setPriority (Int.natCast_nonneg _) (toNat_and_0xff_le prio)).wp ht
      fun _ u hu => ?_
    exact preservesPrio_enqueueReady.wp hu fun _ _ hv => hv
  · exact hs

theorem preservesPrio_scheduleTime {quantum timeslice : Time} :
    PreservesPrio (scheduleTime p quantum timeslice) := by
  have hquantum : PreservesPrio (setTotalQuantum p quantum) :=
    preservesPrio_of_keeps (keepsPrio_modTcb fun _ => rfl)
  have hslice : PreservesPrio (setTimesliceLength p timeslice) :=
    preservesPrio_of_keeps (keepsPrio_modTcb fun _ => rfl)
  have hrest : PreservesPrio (if timeslice.isPeriod then setTimesliceLength p timeslice
      else pure ()) := by
    split
    · exact hslice
    · exact .pure _
  rw [scheduleTime]
  split
  · exact .bind hquantum fun _ => .bind preservesPrio_enqueueReady fun _ => hrest
  · exact hrest

/-- The sensitive priority is set only to one that is not lower than the priority. -/
theorem preservesPrio_schedulePreemption {maxDelay : BitVec 16} {prio : Int}
    (hprio : prio ≤ L4Thread.maxPrio) : PreservesPrio (schedulePreemption p maxDelay prio) := by
  refine .bind (preservesPrio_of_keeps (keepsPrio_modTcb fun _ => rfl)) fun _ => ?_
  refine .of_wp fun s hs => ?_
  rw [wp_bind, wp_readTcb, wp_ite]
  split
  · next hle =>
    rw [setSensitivePrio, wp_modTcb]
    exact hs.setTcb ⟨(hs.tcb p).1, hle, hprio⟩
  · exact hs

theorem preservesPrio_doSchedule {timeControl prio preemptionControl : Word} :
    PreservesPrio (doSchedule p timeControl prio preemptionControl) := by
  have hrest : PreservesPrio (if preemptionControl ≠ BitVec.allOnes 64 then
      schedulePreemption p ((preemptionControl &&& 0xffff).setWidth 16)
        ((preemptionControl >>> 16) &&& 0xff).toNat else pure ()) := by
    split
    · exact preservesPrio_schedulePreemption (toNat_and_0xff_le _)
    · exact .pure _
  refine .bind preservesPrio_schedulePrio fun _ => ?_
  dsimp only
  split
  · exact .bind preservesPrio_scheduleTime fun _ => hrest
  · exact hrest

theorem keepsPrio_setErrorCode {w : Word} : Keeps KState.prioPart (setErrorCode p w) :=
  keepsPrio_modUtcb

theorem preservesPrio_sysSchedule {dest : ThreadId} {timeControl prio preemptionControl : Word} :
    PreservesPrio (sysSchedule dest timeControl prio preemptionControl) := by
  have herror : ∀ q w, PreservesPrio (setErrorCode q w) := fun q w =>
    preservesPrio_of_keeps keepsPrio_setErrorCode
  have hspace : PreservesPrio getCurrentSpace :=
    .bind (.gets _) fun _ => .bind (.gets _) fun _ => .pure _
  refine .bind (.gets _) fun current => .bind (.gets _) fun d => ?_
  split
  · exact .bind (herror _ _) fun _ => .pure _
  · refine .bind (.gets _) fun sched => .bind hspace fun sp => ?_
    split
    · exact .bind (herror _ _) fun _ => .pure _
    · refine .bind preservesPrio_doSchedule fun _ => ?_
      exact .bind (.bind (.gets _) fun _ => .pure _) fun _ => .pure _

/-! ## Runs -/

theorem prioInv_init (h : s.SchedulerInit) : s.PrioInv := by
  obtain ⟨m, hm, hinit⟩ := h
  cases hinit
  refine ⟨fun p => ?_, (by decide : (-1 : Int) ≤ L4Thread.maxPrio)⟩
  show (m.tcb p).InRange
  rw [hm p]
  exact ⟨Int.le_refl 0, Int.le_refl 0, (by decide : (0 : Int) ≤ L4Thread.maxPrio)⟩

/-- Every operation keeps the priorities in range and ordered. -/
theorem PrioOp.Step.prioInv {o : PrioOp} (h : s.PrioInv) (hstep : o.Step s t) : t.PrioInv := by
  cases o with
  | schedule =>
    obtain ⟨r, hr⟩ := hstep
    exact preservesPrio_sysSchedule s r t h hr
  | createInactive => exact preservesPrio_createInactive s () t h hstep
  | createKernelThread => exact preservesPrio_createKernelThread s () t h hstep
  | setPriority p prio =>
    obtain ⟨hprio, hrun⟩ := hstep
    refine preservesPrio_setPriority ?_ ?_ s () t h hrun
    · rcases hprio with rfl | rfl
      · exact Int.le_refl 0
      · decide
    · rcases hprio with rfl | rfl
      · decide
      · exact Int.le_refl _
  | enqueueReady => exact preservesPrio_enqueueReady s () t h hstep
  | dequeueReady => exact preservesPrio_dequeueReady s () t h hstep
  | findNextThread =>
    obtain ⟨r, hr⟩ := hstep
    exact preservesPrio_findNextThread s r t h hr
  | other => exact h.congr hstep

theorem PrioReach.prioInv (h : PrioReach s) : s.PrioInv :=
  h.invariant (fun _ => prioInv_init) fun _ _ _ hs _ hstep => hstep.prioInv hs

/-! ## Indices -/

/-- Other memory around the array of the ready queues. -/
def around (m q : Int → Option TcbPtr) : Int → Option TcbPtr := fun n =>
  if 0 ≤ n ∧ n ≤ maxPrio then q n else m n

def KState.around (s : KState) (m : Int → Option TcbPtr) : KState :=
  { s with prioQueue := L4Thread.around m s.prioQueue }

/-- The computation reads and writes the array of the ready queues, and not the memory around it. -/
def InsideArray (x : Kernel α) (s : KState) : Prop :=
  ∀ m, x (s.around m) = (x s).map fun r => (r.1, r.2.around m)

/-- The thread has an index inside the array. -/
def KState.Indexed (s : KState) (p : TcbPtr) : Prop :=
  0 ≤ (s.tcb p).priority ∧ (s.tcb p).priority ≤ L4Thread.maxPrio

theorem around_of_mem {m q : Int → Option TcbPtr} {n : Int} (h : 0 ≤ n ∧ n ≤ maxPrio) :
    L4Thread.around m q n = q n := if_pos h

theorem around_update {m q : Int → Option TcbPtr} {n : Int} {o : Option TcbPtr}
    (h : 0 ≤ n ∧ n ≤ maxPrio) :
    L4Thread.around m (Function.update q n o) = Function.update (L4Thread.around m q) n o := by
  funext k
  rcases eq_or_ne k n with rfl | hk
  · rw [around_of_mem h, Function.update_self, Function.update_self]
  · rw [Function.update_of_ne hk, L4Thread.around, L4Thread.around, Function.update_of_ne hk]

namespace InsideArray

variable {x : Kernel α} {f : α → Kernel β}

theorem pure (a : α) : InsideArray (pure a) s := fun _ => rfl

theorem trap (e : Trap) : InsideArray (trap e : Kernel α) s := fun _ => rfl

theorem modify {g : KState → KState} (h : ∀ m, g (s.around m) = (g s).around m) :
    InsideArray (modify g) s := fun m => congrArg (fun t => Except.ok ((), t)) (h m)

theorem bind (hx : InsideArray x s) (hf : ∀ a t, x s = .ok (a, t) → InsideArray (f a) t) :
    InsideArray (x >>= f) s := by
  intro m
  rw [bind_apply, bind_apply, hx m]
  cases h : x s with
  | error e => rfl
  | ok r => exact hf r.1 r.2 h m

/-- What is read does not depend on the memory around the array, as far as it is used. -/
theorem gets_bind {g : KState → α} (hg : ∀ m, f (g (s.around m)) = f (g s))
    (h : InsideArray (f (g s)) s) : InsideArray (gets g >>= f) s := by
  intro m
  show f (g (s.around m)) (s.around m) = _
  rw [hg m]
  exact h m

end InsideArray

theorem insideArray_ofLinks {o : Option α} : InsideArray (ofLinks o) s := by
  cases o with
  | none => exact .trap _
  | some a => exact .pure a

theorem insideArray_setReadyQueue {n : Int} {h : Option TcbPtr} {l : TcbPtr → Link TcbPtr}
    (hn : 0 ≤ n ∧ n ≤ maxPrio) : InsideArray (setReadyQueue n h l) s := by
  refine .modify fun m => ?_
  rw [KState.around, KState.around, around_update hn]

theorem insideArray_setPrioQueue {n : Int} {h : Option TcbPtr} (hn : 0 ≤ n ∧ n ≤ maxPrio) :
    InsideArray (setPrioQueue n h) s := by
  refine .modify fun m => ?_
  rw [KState.around, KState.around, around_update hn]

theorem insideArray_enqueueReady {head : Bool} (h : s.Indexed p) :
    InsideArray (enqueueReady p head) s := by
  refine .gets_bind (fun _ => rfl) ?_
  split
  · exact .pure _
  · refine .gets_bind (fun m => ?_) (.bind insideArray_ofLinks fun r t _ => ?_)
    · simp only [id, KState.around, around_of_mem h]
    · refine .bind (insideArray_setReadyQueue h) fun _ _ _ => ?_
      exact .bind (.modify fun _ => rfl) fun _ _ _ => .modify fun _ => rfl

theorem insideArray_dequeueReady (h : s.Indexed p) : InsideArray (dequeueReady p) s := by
  refine .gets_bind (fun _ => rfl) ?_
  split
  · refine .gets_bind (fun m => ?_) (.bind insideArray_ofLinks fun r t _ => ?_)
    · simp only [id, KState.around, around_of_mem h]
    · exact .bind (insideArray_setReadyQueue h) fun _ _ _ => .modify fun _ => rfl
  · exact .pure _

/-- Indices depend on the priorities only. -/
theorem KState.Indexed.keeps {x : Kernel α} {a : α}
    (hx : Keeps (fun s : KState => fun p => (s.tcb p).priority) x) (hrun : x s = .ok (a, t))
    (h : s.Indexed p) : t.Indexed p := by
  rw [KState.Indexed, show (t.tcb p).priority = (s.tcb p).priority from
    congrFun (hx s a t hrun) p]
  exact h

theorem insideArray_findRunnable {n : Int} (hn : 0 ≤ n ∧ n ≤ maxPrio) (fuel : Nat)
    (h : ∀ p, s.Indexed p) : InsideArray (findRunnable n fuel) s := by
  induction fuel generalizing s with
  | zero => exact .trap _
  | succ fuel ih =>
    refine .gets_bind (fun m => ?_) ?_
    · rw [show (s.around m).prioQueue n = s.prioQueue n from around_of_mem hn]
    cases s.prioQueue n with
    | none => exact .pure _
    | some p =>
      refine .bind (fun _ => rfl) fun st t hst => ?_
      cases hst
      split
      · refine .bind (insideArray_setPrioQueue hn) fun _ _ _ => ?_
        exact .bind (.modify fun _ => rfl) fun _ _ _ => .pure _
      · exact .bind (insideArray_dequeueReady (h p)) fun _ t ht =>
          ih fun q => (h q).keeps keeps_priority_dequeueReady ht

theorem insideArray_findBelow {n : Nat} (hn : (n : Int) ≤ maxPrio + 1) (h : ∀ p, s.Indexed p) :
    InsideArray (findBelow n) s := by
  induction n generalizing s with
  | zero => exact .bind (.modify fun _ => rfl) fun _ _ _ => .pure _
  | succ n ih =>
    have hle : (n : Int) ≤ maxPrio := by
      rw [Int.natCast_succ] at hn
      exact Int.le_of_lt_add_one (Int.lt_of_lt_of_le (Int.lt_succ _) hn)
    refine .bind (insideArray_findRunnable ⟨Int.natCast_nonneg n, hle⟩ _ h) fun o t ho => ?_
    cases o with
    | some p => exact .pure p
    | none =>
      exact ih (Int.le_trans hle (Int.le_of_lt (Int.lt_succ _))) fun q =>
        (h q).keeps keeps_priority_findRunnable ho

theorem KState.PrioInv.indexed (h : s.PrioInv) (p : TcbPtr) : s.Indexed p :=
  ⟨(h.tcb p).1, (h.tcb p).priority_le⟩

theorem insideArray_findNextThread (h : s.PrioInv) : InsideArray findNextThread s :=
  .gets_bind (fun _ => rfl) (insideArray_findBelow h.toNat_maxPrio_le h.indexed)

/-! ## Calls without a priority -/

/-- A thread that is in no ready queue is put at the tail of the queue of its priority. -/
def ReadyPart.putLast (r : ReadyPart) (p : TcbPtr) : Option ReadyPart :=
  (Ring.enqueueTail (r.prioQueue (r.tcb p).2) r.readyList p).map fun (head, links) =>
    { tcb := Function.update r.tcb p (true, (r.tcb p).2)
      readyList := links
      prioQueue := Function.update r.prioQueue (r.tcb p).2 head
      maxPrio := max (r.tcb p).2 r.maxPrio }

theorem wp_enqueueReady_last : wp (fun _ => True) (enqueueReady p false) (fun _ t =>
    if (s.tcb p).queueState.ready then t = s else s.readyPart.putLast p = some t.readyPart) s := by
  rw [enqueueReady, wp_bind, wp_readTcb, wp_ite]
  split
  · rw [wp_pure]
  · rw [wp_bind, wp_gets, wp_bind, if_neg Bool.false_ne_true, id]
    cases h : Ring.enqueueTail (s.prioQueue (s.tcb p).priority) s.readyList p with
    | none => trivial
    | some r =>
      rw [ofLinks, wp_pure]
      dsimp only
      rw [wp_bind, setReadyQueue, wp_modify, wp_bind, setReady, wp_modTcb, setMaxPrio, wp_modify]
      show (Ring.enqueueTail (s.prioQueue (s.tcb p).priority) s.readyList p).map _ = _
      rw [h, Option.map_some, KState.readyPart]
      refine congrArg some (ReadyPart.mk.injEq .. ▸ ⟨?_, rfl, rfl, rfl⟩)
      funext q
      rcases eq_or_ne q p with rfl | hq
      · rw [Function.update_self]
        simp only [Function.update_self]
        rfl
      · rw [Function.update_of_ne hq]
        simp only [Function.update_of_ne hq]

/-- The new total quantum puts the thread into its ready queue. -/
def Requeues (s : KState) (p : TcbPtr) (timeControl : Word) : Prop :=
  (s.tcb p).queueState.ready = false ∧ timeControl ≠ BitVec.allOnes 64 ∧
    (⟨timeControl.setWidth 16⟩ : Time).isPeriod

instance {timeControl : Word} : Decidable (Requeues s p timeControl) :=
  inferInstanceAs (Decidable (_ ∧ _))

theorem keepsReady_schedulePreemption {maxDelay : BitVec 16} {prio : Int} :
    Keeps KState.readyPart (schedulePreemption p maxDelay prio) := by
  refine .bind (keepsReady_modTcb fun _ => rfl) fun _ => .bind (.gets _) fun _ => ?_
  split
  · exact keepsReady_modTcb fun _ => rfl
  · exact .pure _

/-- What the total quantum does to the ready queues. -/
theorem wp_scheduleTime_last {quantum timeslice : Time} :
    wp (fun _ => True) (scheduleTime p quantum timeslice) (fun _ t =>
      if (s.tcb p).queueState.ready = false ∧ quantum.isPeriod then
        s.readyPart.putLast p = some t.readyPart
      else t.readyPart = s.readyPart) s := by
  have hrest : Keeps KState.readyPart (if timeslice.isPeriod then setTimesliceLength p timeslice
      else pure ()) := by
    split
    · exact keepsReady_modTcb fun _ => rfl
    · exact .pure _
  rw [scheduleTime]
  by_cases hq : quantum.isPeriod = true
  · have hquantum : Keeps KState.readyPart (setTotalQuantum p quantum) :=
      keepsReady_modTcb fun _ => rfl
    rw [if_pos hq, wp_bind]
    refine hquantum.wp fun _ u hu => ?_
    rw [wp_bind]
    refine wp_mono wp_enqueueReady_last fun _ v hv => hrest.wp fun _ t ht => ?_
    have hbit : (u.tcb p).queueState.ready = (s.tcb p).queueState.ready :=
      congrArg Prod.fst (congrFun (congrArg ReadyPart.tcb hu) p)
    rw [hbit] at hv
    split at hv
    · next hready =>
      rw [if_neg fun hno => Bool.false_ne_true (hno.1.symm.trans hready), ht, hv, hu]
    · next hready =>
      rw [if_pos ⟨Bool.eq_false_iff.mpr hready, hq⟩, ← hu, ht, hv]
  · rw [if_neg hq]
    refine hrest.wp fun _ t ht => ?_
    rw [if_neg fun hno => hq hno.2, ht]

theorem wp_doSchedule_last {timeControl preemptionControl : Word} :
    wp (fun _ => True) (doSchedule p timeControl (BitVec.allOnes 64) preemptionControl) (fun _ t =>
      if Requeues s p timeControl then s.readyPart.putLast p = some t.readyPart
      else t.readyPart = s.readyPart) s := by
  have hrest : Keeps KState.readyPart (if preemptionControl ≠ BitVec.allOnes 64 then
      schedulePreemption p ((preemptionControl &&& 0xffff).setWidth 16)
        ((preemptionControl >>> 16) &&& 0xff).toNat else pure ()) := by
    split
    · exact keepsReady_schedulePreemption
    · exact .pure _
  rw [doSchedule, wp_bind, schedulePrio, wp_bind, wp_readTcb, if_neg fun h => h.1 rfl, wp_pure]
  by_cases ht : timeControl ≠ BitVec.allOnes 64
  · rw [if_pos ht, wp_bind]
    refine wp_mono wp_scheduleTime_last fun _ u hu => hrest.wp fun _ t htu => ?_
    rw [htu]
    split at hu
    · next h => rwa [if_pos ⟨h.1, ht, h.2⟩]
    · next h => rwa [if_neg fun hr => h ⟨hr.1, hr.2.2⟩]
  · rw [if_neg ht]
    refine hrest.wp fun _ t htu => ?_
    rwa [if_neg fun hr => ht hr.2.1]

/-- The checks of the caller of `SYS_SCHEDULE`. -/
def KState.MaySchedule (s : KState) (dest : ThreadId) : Prop :=
  (s.tcb (getTcb dest)).myselfGlobal = dest ∧
    (s.tcb (getTcb (s.tcb (getTcb dest)).scheduler)).myselfGlobal =
      (s.tcb (getTcb dest)).scheduler ∧
    (s.tcb (getTcb (s.tcb (getTcb dest)).scheduler)).space = (s.tcb s.currentTcb).space

instance {dest : ThreadId} : Decidable (s.MaySchedule dest) := inferInstanceAs (Decidable (_ ∧ _))

/-- What a call without a priority does to the ready queues. -/
theorem readyPart_sysSchedule {dest : ThreadId} {timeControl preemptionControl r : Word}
    (h : sysSchedule dest timeControl (BitVec.allOnes 64) preemptionControl s = .ok (r, t)) :
    if s.MaySchedule dest ∧ Requeues s (getTcb dest) timeControl then
      s.readyPart.putLast (getTcb dest) = some t.readyPart
    else t.readyPart = s.readyPart := by
  have herror : ∀ q w, Keeps KState.readyPart (setErrorCode q w) := fun q w =>
    .bind keeps_getUtcb fun _ => .modify fun _ => rfl
  refine wp_ok (E := fun _ => True) (Q := fun _ t =>
    if s.MaySchedule dest ∧ Requeues s (getTcb dest) timeControl then
      s.readyPart.putLast (getTcb dest) = some t.readyPart
    else t.readyPart = s.readyPart) ?_ h
  rw [sysSchedule, wp_bind, wp_getCurrentTcb]
  dsimp only
  rw [wp_bind, wp_readTcb, wp_ite]
  split
  · next hid =>
    rw [wp_bind]
    refine (herror _ _).wp fun _ t ht => ?_
    rw [wp_pure, if_neg fun hm => hid hm.1.1, ht]
  · next hid =>
    rw [wp_bind, wp_readTcb, wp_bind, wp_getCurrentSpace, wp_ite]
    split
    · next hsched =>
      rw [wp_bind]
      refine (herror _ _).wp fun _ t ht => ?_
      rw [wp_pure, if_neg ?_, ht]
      rintro ⟨⟨-, hmay⟩, -⟩
      exact hsched.elim (fun hne => hne hmay.1) fun hne => hne hmay.2
    · next hsched =>
      rw [not_or, not_not, not_not] at hsched
      have hmay : s.MaySchedule dest := ⟨not_not.mp hid, hsched⟩
      rw [wp_bind]
      refine wp_mono wp_doSchedule_last fun _ u hu => ?_
      rw [wp_bind, Kernel.getState, wp_bind, wp_readTcb, wp_pure, wp_pure]
      split at hu
      · next hr => rwa [if_pos ⟨hmay, hr⟩]
      · next hr => rwa [if_neg fun hno => hr hno.2]

theorem ReadyPart.priority_putLast {r r' : ReadyPart} (h : r.putLast p = some r') (q : TcbPtr) :
    (r'.tcb q).2 = (r.tcb q).2 := by
  obtain ⟨⟨head, links⟩, -, rfl⟩ := Option.map_eq_some_iff.mp h
  show (Function.update r.tcb p (true, (r.tcb p).2) q).2 = _
  rcases eq_or_ne q p with rfl | hq
  · rw [Function.update_self]
  · rw [Function.update_of_ne hq]

/-- Priorities stay in range and ordered, the ready queues are indexed inside their array, and a
call without a priority changes the queues only for a new total quantum. -/
theorem priorities_inRange (h : PrioReach s) :
    (∀ p, (s.tcb p).InRange) ∧ (∀ p head, InsideArray (enqueueReady p head) s) ∧
    (∀ p, InsideArray (dequeueReady p) s) ∧ InsideArray findNextThread s ∧
    ∀ dest timeControl preemptionControl r t,
      sysSchedule dest timeControl (BitVec.allOnes 64) preemptionControl s = .ok (r, t) →
      (∀ p, (t.tcb p).priority = (s.tcb p).priority) ∧
        if s.MaySchedule dest ∧ Requeues s (getTcb dest) timeControl then
          s.readyPart.putLast (getTcb dest) = some t.readyPart
        else t.readyPart = s.readyPart := by
  have hinv := h.prioInv
  refine ⟨hinv.tcb, fun p _ => insideArray_enqueueReady (hinv.indexed p),
    fun p => insideArray_dequeueReady (hinv.indexed p), insideArray_findNextThread hinv, ?_⟩
  intro dest timeControl preemptionControl r t hrun
  have hready := readyPart_sysSchedule hrun
  refine ⟨fun p => ?_, hready⟩
  split at hready
  · exact ReadyPart.priority_putLast hready p
  · exact congrArg Prod.snd (congrFun (congrArg ReadyPart.tcb hready) p)

/-! ## A thread that is scheduled -/

/-- A thread that is its own scheduler, created behind the initialisation. -/
theorem exists_created : ∃ s, PrioReach s ∧ s.MaySchedule (sampleTid 0) ∧
    Requeues s (getTcb (sampleTid 0)) 1 ∧
    ∃ r t, sysSchedule (sampleTid 0) 1 (BitVec.allOnes 64) (BitVec.allOnes 64) s = .ok (r, t) := by
  obtain ⟨s, hs⟩ : ∃ s, initPrioQueue (.zero .sample) = .ok ((), s) := ⟨_, rfl⟩
  obtain ⟨t, ht⟩ : ∃ t, createInactive (getTcb (sampleTid 0)) (sampleTid 0) (sampleTid 0) s =
    .ok ((), t) := ⟨_, rfl⟩
  have hreach : PrioReach t := .step (e := .createInactive _ _ _)
    (.init ⟨.zero .sample, fun _ => rfl, hs⟩) trivial ht
  refine ⟨t, hreach, ?_⟩
  cases hs
  cases ht
  exact ⟨⟨rfl, rfl, rfl⟩, ⟨rfl, by decide, rfl⟩, _, _, rfl⟩

/-- It is put into the queue of its priority. -/
theorem exists_requeued : ∃ s t r, PrioReach s ∧ (∀ p, (s.tcb p).InRange) ∧
    sysSchedule (sampleTid 0) 1 (BitVec.allOnes 64) (BitVec.allOnes 64) s = .ok (r, t) ∧
    s.readyPart.putLast (getTcb (sampleTid 0)) = some t.readyPart := by
  obtain ⟨s, hs, hmay, hre, r, t, hrun⟩ := exists_created
  obtain ⟨hrange, -, -, -, hcall⟩ := priorities_inRange hs
  obtain ⟨-, hqueues⟩ := hcall _ _ _ _ _ hrun
  rw [if_pos ⟨hmay, hre⟩] at hqueues
  exact ⟨s, t, r, hs, hrange, hrun, hqueues⟩

/-- A call without a priority that moves a thread. -/
theorem exists_moved : ∃ s t r, PrioReach s ∧
    sysSchedule (sampleTid 0) 1 (BitVec.allOnes 64) (BitVec.allOnes 64) s = .ok (r, t) ∧
    (s.tcb (getTcb (sampleTid 0))).queueState.ready = false ∧
    (t.tcb (getTcb (sampleTid 0))).queueState.ready = true := by
  obtain ⟨s, hs, hmay, hre, r, t, hrun⟩ := exists_created
  have hqueues := readyPart_sysSchedule hrun
  rw [if_pos ⟨hmay, hre⟩] at hqueues
  obtain ⟨⟨head, links⟩, -, hput⟩ := Option.map_eq_some_iff.mp hqueues
  refine ⟨s, t, r, hs, hrun, hre.1, ?_⟩
  have hbit := congrFun (congrArg ReadyPart.tcb hput) (getTcb (sampleTid 0))
  dsimp only at hbit
  rw [Function.update_self] at hbit
  exact (congrArg Prod.fst hbit).symm

end L4Thread
