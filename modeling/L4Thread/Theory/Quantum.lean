import L4Thread.Theory.FindNext
import L4Thread.Theory.Ident

/-!
# The total quantum

The timer charges the current thread through the timeslice of the ready queues and, at the end of a
timeslice, through the total quantum in the TCB. `QuantumAccount` is this pair and its tick; the
ticks of the kernel, as long as the thread has its priority for itself, are ticks of the account.
Every account with a quantum and a timeslice comes to the event, and how many ticks it takes depends
on the rest of the timeslice that was left.
-/

namespace L4Thread

open TrapM Kernel Ring

variable {E : Trap → Prop} {s t u : KState} {p q : TcbPtr} {R : Int → List TcbPtr} {n : Nat}
  {length : Word} {quantum timeslice : Time}

/-! ## The account -/

/-- What the current thread may still use. -/
structure QuantumAccount where
  /-- `total_quantum`. -/
  total : Word
  /-- The timeslice in the ready queues. -/
  slice : Word

namespace QuantumAccount

variable {a b : QuantumAccount}

/-- A tick charged to a thread with the timeslice `length`; `none` is the event of an expired total
quantum. -/
def tick (length : Word) (a : QuantumAccount) : Option QuantumAccount :=
  let left := a.slice - timerTickLength
  if (0 : Word).slt left then some ⟨a.total, left⟩
  else if a.total = totalQuantumExpired then none
  else if a.total ≤ length then some ⟨totalQuantumExpired, left + length⟩
  else some ⟨a.total - length, left + length⟩

/-- The event comes after `n` ticks, with the next one. -/
def ExpiresAfter (length : Word) : Nat → QuantumAccount → Prop
  | 0, a => a.tick length = none
  | n + 1, a => ∃ b, a.tick length = some b ∧ b.ExpiresAfter length n

/-- The ends of a timeslice that are to come, at most. -/
def rank (a : QuantumAccount) : Nat := if a.total = totalQuantumExpired then 0 else a.total.toNat

theorem toNat_sub_timerTickLength {w : Word} (h : (0 : Word).slt (w - timerTickLength)) :
    (w - timerTickLength).toNat + timerTickLength.toNat = w.toNat := by
  have htick : timerTickLength.toNat = 2000 := rfl
  have hzero : (0 : Word).toInt = 0 := rfl
  rw [BitVec.slt, decide_eq_true_eq, hzero, BitVec.toInt_eq_toNat_cond] at h
  rw [BitVec.toNat_sub] at h ⊢
  omega

/-- The two ways a tick goes on. -/
theorem tick_cases (hlen : length ≠ 0) (htotal : a.total ≠ 0) (h : a.tick length = some b) :
    b.total ≠ 0 ∧ (b.rank < a.rank ∨ b.total = a.total ∧ b.slice.toNat < a.slice.toNat) := by
  rw [tick] at h
  split at h
  · rename_i hleft
    cases h
    have hlt := toNat_sub_timerTickLength hleft
    have htick : timerTickLength.toNat = 2000 := rfl
    refine ⟨htotal, .inr ⟨rfl, ?_⟩⟩
    dsimp only
    omega
  · split at h
    · cases h
    · rename_i hlive
      have hpos : a.total.toNat ≠ 0 := fun hz => htotal (BitVec.eq_of_toNat_eq hz)
      split at h
      · cases h
        have hexpired : totalQuantumExpired ≠ 0 := by decide
        refine ⟨hexpired, .inl ?_⟩
        rw [rank, rank, if_pos rfl, if_neg hlive]
        omega
      · rename_i hle
        cases h
        have hlen : length.toNat ≠ 0 := fun hz => hlen (BitVec.eq_of_toNat_eq hz)
        rw [BitVec.le_def] at hle
        have hsub : (a.total - length).toNat = a.total.toNat - length.toNat := by
          rw [BitVec.toNat_sub_of_le (BitVec.le_def.mpr (by omega))]
        refine ⟨fun hz => ?_, .inl ?_⟩
        · dsimp only at hz
          rw [hz] at hsub
          have hzero : (0 : Word).toNat = 0 := rfl
          omega
        · rw [rank, rank, if_neg hlive]
          dsimp only
          split
          · omega
          · omega

/-- Every account with a quantum and a timeslice comes to the event. -/
theorem exists_expiresAfter (hlen : length ≠ 0) (htotal : a.total ≠ 0) :
    ∃ n, a.ExpiresAfter length n := by
  induction hrank : a.rank using Nat.strong_induction_on generalizing a with
  | _ r ihrank =>
    induction hslice : a.slice.toNat using Nat.strong_induction_on generalizing a with
    | _ m ihslice =>
      cases htick : a.tick length with
      | none => exact ⟨0, htick⟩
      | some b =>
        obtain ⟨hb, hless⟩ := tick_cases hlen htotal htick
        have hnext : ∃ n, b.ExpiresAfter length n := by
          rcases hless with hless | ⟨htot, hless⟩
          · exact ihrank b.rank (hrank ▸ hless) hb rfl
          · refine ihslice b.slice.toNat (hslice ▸ hless) hb ?_ rfl
            rw [← hrank, rank, rank, htot]
        obtain ⟨n, hn⟩ := hnext
        exact ⟨n + 1, b, htick, hn⟩

/-- A tick more in the timeslice is a tick more to the event. -/
theorem ExpiresAfter.later {total slice : Word}
    (h : ExpiresAfter length n ⟨total, slice⟩) (hslice : (0 : Word).slt slice) :
    ExpiresAfter length (n + 1) ⟨total, slice + timerTickLength⟩ := by
  refine ⟨⟨total, slice⟩, ?_, h⟩
  have hleft : slice + timerTickLength - timerTickLength = slice := BitVec.add_sub_cancel _ _
  rw [tick, hleft, if_pos hslice]

end QuantumAccount

/-! ## The ticks of the kernel -/

/-- The first part of `handle_timer_interrupt`: has the timeslice of the current thread ended? -/
def tickSlice : Kernel Bool := do
  tickTime
  let current ← getCurrentTcb
  let wakeup ← parseWakeupQueues current
  if current = .idle then pure false else tickTimeslice current wakeup

/-- The quantum and the timeslice of a thread. -/
@[grind] def Tcb.params (c : Tcb) : Word × Word := (c.totalQuantum, c.timesliceLength)

namespace KState

/-- The tick ends a timeslice with the total quantum used up: `total_quantum_expired`. -/
def RaisesExpired (s : KState) (p : TcbPtr) : Prop :=
  ∃ t, tickSlice s = .ok (true, t) ∧ (t.tcb p).totalQuantum = totalQuantumExpired

/-- The thread runs, without delayed preemption, and no other of its priority could. -/
structure RunsAlone (s : KState) (p : TcbPtr) : Prop where
  current : s.currentTcb = p
  not_idle : p ≠ .idle
  undelayed : (s.utcbOf p).preemptFlags.isDelayed = false
  alone : ∀ q, q ≠ p → (s.tcb q).priority = (s.tcb p).priority → s.runnable q = false

def params (s : KState) (p : TcbPtr) : Word × Word := (s.tcb p).params

/-- A run from `s` to `t` in which the thread is charged `n` ticks without the event. Between them
anything may happen but a new setting. -/
inductive QuantumRun (p : TcbPtr) (s : KState) : Nat → KState → Prop
  | start : QuantumRun p s 0 s
  | tick {n : Nat} {t u : KState} : QuantumRun p s n t → t.RunsAlone p → ¬t.RaisesExpired p →
    handleTimerInterrupt t = .ok ((), u) → QuantumRun p s (n + 1) u
  | other {n : Nat} {t u : KState} : QuantumRun p s n t → u.params p = t.params p →
    QuantumRun p s n u

end KState

/-- From the setting to the event the thread is charged its total quantum, within a tick. -/
def ChargesQuantum (p : TcbPtr) (quantum timeslice : Time) : Prop :=
  ∀ r s t n, scheduleTime p quantum timeslice r = .ok ((), s) → s.QuantumRun p n t →
    t.RunsAlone p → t.RaisesExpired p →
    quantum.getMicroseconds.toNat ≤ (n + 1) * timerTickLength.toNat ∧
      (n + 1) * timerTickLength.toNat < quantum.getMicroseconds.toNat + timerTickLength.toNat

/-- A tick that ends a timeslice goes on with the book-keeping of the quantum. -/
theorem handleTimerInterrupt_of_tickSlice (hidle : s.currentTcb ≠ .idle)
    (h : tickSlice s = .ok (true, t)) :
    handleTimerInterrupt s = chargeQuantum s.currentTcb t := by
  rw [tickSlice] at h
  obtain ⟨_, s₁, h₁, h⟩ := bind_eq_ok.mp h
  cases h₁
  obtain ⟨_, _, ⟨⟩, h⟩ := bind_eq_ok.mp h
  obtain ⟨wakeup, s₂, h₂, h⟩ := bind_eq_ok.mp h
  rw [if_neg hidle] at h
  rw [handleTimerInterrupt, tickTime, bind_apply, modify_apply]
  dsimp only
  rw [bind_apply, getCurrentTcb, gets_apply]
  dsimp only
  rw [bind_apply, h₂]
  dsimp only
  rw [if_neg hidle, bind_apply, h]
  rfl

/-- The event: the thread sends its preemption message. -/
theorem KState.RaisesExpired.sends (hp : s.RunsAlone p) (h : s.RaisesExpired p) :
    ∃ t, handleTimerInterrupt s = sendPreemptionIpc p t.currentTime t := by
  obtain ⟨t, ht, hexp⟩ := h
  obtain rfl := hp.current
  have hne : totalQuantumExpired ≠ 0 := by decide
  refine ⟨t, ?_⟩
  rw [handleTimerInterrupt_of_tickSlice hp.not_idle ht, chargeQuantum, bind_apply, readTcb,
    gets_apply]
  dsimp only
  rw [hexp, if_neg hne, if_pos rfl, bind_apply, gets_apply]

/-! ## What a change of the ready queues leaves alone -/

/-- What the ready queues leave alone. -/
@[grind] def Tcb.outline (c : Tcb) : Option UtcbPtr × Int × ThreadState × Word × Word :=
  (c.utcb, c.priority, c.state, c.totalQuantum, c.timesliceLength)

/-- What a change of the ready queues leaves alone. -/
structure Outline where
  currentTcb : TcbPtr
  utcb : UtcbPtr → Utcb
  wakeupList : Option TcbPtr
  queueTimeslice : Word
  tcb : TcbPtr → Option UtcbPtr × Int × ThreadState × Word × Word

def KState.outline (s : KState) : Outline :=
  ⟨s.currentTcb, s.utcb, s.wakeupList, s.queueTimeslice, fun p => (s.tcb p).outline⟩

abbrev KeepsOutline {α : Type} (x : Kernel α) : Prop := Keeps KState.outline x

section Outline

variable {b : Bool}

@[grind ←] theorem keepsOutline_modTcb {f : Tcb → Tcb} (h : ∀ c, (f c).outline = c.outline) :
    KeepsOutline (modTcb p f) := by
  refine .modify fun s => ?_
  simp only [KState.outline, Outline.mk.injEq, true_and]
  funext q
  rcases eq_or_ne q p with rfl | hq
  · rw [Function.update_self, h]
  · rw [Function.update_of_ne hq]

@[grind ←] theorem keepsOutline_setMaxPrio {n : Int} : KeepsOutline (setMaxPrio n) :=
  .modify fun _ => rfl

@[grind ←] theorem keepsOutline_setReadyQueue {prio : Int} {h : Option TcbPtr}
    {l : TcbPtr → Link TcbPtr} : KeepsOutline (setReadyQueue prio h l) := .modify fun _ => rfl

@[grind ←] theorem keepsOutline_setPrioQueue {prio : Int} {h : Option TcbPtr} :
    KeepsOutline (setPrioQueue prio h) := .modify fun _ => rfl

@[grind ←] theorem keepsOutline_enqueueReady : KeepsOutline (enqueueReady p b) := by
  unfold enqueueReady
  grind

@[grind ←] theorem keepsOutline_dequeueReady : KeepsOutline (dequeueReady p) := by
  unfold dequeueReady
  grind

@[grind ←] theorem keepsOutline_findRunnable {prio : Int} (fuel : Nat) :
    KeepsOutline (findRunnable prio fuel) := by
  induction fuel with
  | zero => exact .trap _
  | succ fuel ih =>
    unfold findRunnable
    grind

@[grind ←] theorem keepsOutline_findBelow (n : Nat) : KeepsOutline (findBelow n) := by
  induction n with
  | zero =>
    unfold findBelow
    grind
  | succ n ih =>
    unfold findBelow
    grind

theorem keepsOutline_findNextThread : KeepsOutline findNextThread := by
  unfold findNextThread
  grind

end Outline

/-! ## No quantum, or no timeslice -/

abbrev KeepsParams {α : Type} (x : Kernel α) : Prop := Keeps KState.params x

theorem KeepsOutline.params {α : Type} {x : Kernel α} (h : KeepsOutline x) : KeepsParams x :=
  h.comp fun o p => (o.tcb p).2.2.2

section Params

variable {α : Type} {f : Tcb → Tcb} {b : Bool}

@[grind ←] theorem keepsParams_modTcb
    (h : ∀ c, (f c).params = c.params) :
    KeepsParams (modTcb p f) := by
  refine .modify fun s => ?_
  funext q
  rcases eq_or_ne q p with rfl | hq
  · simp only [KState.params, Function.update_self]
    exact h _
  · simp only [KState.params, Function.update_of_ne hq]

@[grind ←] theorem keepsParams_modUtcb {f : Utcb → Utcb} : KeepsParams (modUtcb p f) :=
  .bind keeps_getUtcb fun _ => .modify fun _ => rfl

@[grind ←] theorem keepsParams_setQueueTimeslice {w : Word} :
    KeepsParams (setQueueTimeslice w) := .modify fun _ => rfl

@[grind ←] theorem keepsParams_switchTo : KeepsParams (switchTo p) := .modify fun _ => rfl

@[grind ←] theorem keepsParams_tickTime : KeepsParams tickTime :=
  .modify fun _ => by
    funext q
    simp only [KState.params]

@[grind ←] theorem keepsParams_setPrioQueue {prio : Int} {h : Option TcbPtr} :
    KeepsParams (setPrioQueue prio h) := .modify fun _ => rfl

@[grind ←] theorem keepsParams_setWakeupList {h : Option TcbPtr} {l : TcbPtr → Link TcbPtr} :
    KeepsParams (setWakeupList h l) := .modify fun _ => rfl

@[grind ←] theorem keepsParams_enqueueReady : KeepsParams (enqueueReady p b) :=
  keepsOutline_enqueueReady.params

@[grind ←] theorem keepsParams_cancelTimeout : KeepsParams (cancelTimeout p) := by
  unfold cancelTimeout
  grind

@[grind ←] theorem keepsParams_checkDispatchThread : KeepsParams (checkDispatchThread p q) := by
  unfold checkDispatchThread delayPreemption
  grind

@[grind ←] theorem keepsParams_findNextThread : KeepsParams findNextThread :=
  keepsOutline_findNextThread.params

@[grind ←] theorem keepsParams_reschedule : KeepsParams (reschedule p) := by
  unfold reschedule schedule
  grind

@[grind ←] theorem keepsParams_endOfTimeslice : KeepsParams (endOfTimeslice p) := by
  unfold endOfTimeslice
  repeat' first | with_reducible refine Keeps.bind ?_ fun _ => ?_ | split
  all_goals grind

@[grind ←] theorem keepsParams_wakeupExpired : KeepsParams (wakeupExpired p q) := by
  unfold wakeupExpired
  repeat' first | with_reducible refine Keeps.bind ?_ fun _ => ?_ | split
  all_goals grind

@[grind ←] theorem keepsParams_parseLoop (fuel : Nat) : KeepsParams (parseLoop fuel p q) := by
  induction fuel generalizing p q with
  | zero => exact .trap _
  | succ fuel ih =>
    unfold parseLoop
    grind

theorem keepsParams_parseWakeupQueues : KeepsParams (parseWakeupQueues p) := by
  unfold parseWakeupQueues
  grind

theorem keepsParams_preemptThread : KeepsParams (preemptThread p q) := by
  unfold preemptThread
  grind

theorem keepsParams_tickTimeslice : KeepsParams (tickTimeslice p q) := by
  unfold tickTimeslice delayPreemption
  repeat' first | with_reducible refine Keeps.bind ?_ fun _ => ?_ | split
  all_goals grind

end Params

theorem currentTcb_tickTime {x : Unit} (h : tickTime s = .ok (x, t)) :
    t.currentTcb = s.currentTcb := by
  cases h
  rfl

theorem keepsParams_tickSlice : KeepsParams tickSlice := by
  refine .bind keepsParams_tickTime fun _ => .bind (.gets _) fun current => ?_
  refine .bind keepsParams_parseWakeupQueues fun wakeup => ?_
  split
  · exact .pure _
  · exact keepsParams_tickTimeslice

/-- The thread has no total quantum, or its timeslice is endless. -/
def KState.Unlimited (s : KState) (p : TcbPtr) : Prop :=
  (s.params p).1 = 0 ∨ (s.params p).2 = 0

/-- Without a timeslice no timeslice ends. -/
theorem tickTimeslice_endless (h : (s.tcb p).timesliceLength = 0) {b : Bool}
    (ht : tickTimeslice p q s = .ok (b, t)) : b = false := by
  rw [tickTimeslice] at ht
  obtain ⟨_, _, ⟨⟩, ht⟩ := bind_eq_ok.mp ht
  rw [if_pos h] at ht
  cases ht
  rfl

/-- A tick that ends a timeslice: the one of the current thread. -/
theorem tickSlice_length (h : tickSlice s = .ok (true, t)) :
    (s.tcb s.currentTcb).timesliceLength ≠ 0 := by
  intro hlen
  rw [tickSlice] at h
  obtain ⟨_, s₁, h₁, h⟩ := bind_eq_ok.mp h
  cases h₁
  obtain ⟨_, _, ⟨⟩, h⟩ := bind_eq_ok.mp h
  obtain ⟨wakeup, s₂, h₂, h⟩ := bind_eq_ok.mp h
  have hparams := congrFun (keepsParams_parseWakeupQueues _ _ _ h₂) s.currentTcb
  split at h
  · cases h
  · have hlen₂ : (s₂.tcb s.currentTcb).timesliceLength = 0 :=
      (congrArg Prod.snd hparams).trans hlen
    have hfalse := tickTimeslice_endless hlen₂ h
    cases hfalse

theorem KState.Unlimited.not_raises (h : s.Unlimited p) (hp : s.currentTcb = p) :
    ¬s.RaisesExpired p := by
  rintro ⟨t, ht, hexp⟩
  have hparams := congrFun (keepsParams_tickSlice _ _ _ ht) p
  rcases h with h | h
  · have hzero : (t.tcb p).totalQuantum = 0 := (congrArg Prod.fst hparams).trans h
    rw [hzero] at hexp
    exact absurd hexp (by decide)
  · rw [← hp] at h
    exact tickSlice_length ht h

theorem chargeQuantum_zero (h : (s.params p).1 = 0) (ht : chargeQuantum p s = .ok ((), t)) :
    t.params = s.params := by
  rw [chargeQuantum] at ht
  obtain ⟨_, _, ⟨⟩, ht⟩ := bind_eq_ok.mp ht
  have hzero : (s.tcb p).totalQuantum = 0 := h
  rw [if_pos hzero] at ht
  exact keepsParams_reschedule _ _ _ ht

/-- A tick leaves the parameters of an unlimited thread alone. -/
theorem KState.Unlimited.tick (h : s.Unlimited p) (hp : s.RunsAlone p)
    (ht : handleTimerInterrupt s = .ok ((), t)) : t.params p = s.params p := by
  obtain rfl := hp.current
  rw [handleTimerInterrupt] at ht
  obtain ⟨_, s₁, h₁, ht⟩ := bind_eq_ok.mp ht
  have hparams₁ : s₁.params = s.params := keepsParams_tickTime _ _ _ h₁
  have hcur : s₁.currentTcb = s.currentTcb := currentTcb_tickTime h₁
  obtain ⟨c, s₀, hc, hbody⟩ := bind_eq_ok.mp ht
  obtain ⟨rfl, rfl⟩ : c = s.currentTcb ∧ s₀ = s₁ := by
    cases hc
    exact ⟨hcur, rfl⟩
  obtain ⟨wakeup, s₂, h₂, hbody⟩ := bind_eq_ok.mp hbody
  have hparams₂ : s₂.params = s.params := (keepsParams_parseWakeupQueues _ _ _ h₂).trans hparams₁
  rw [if_neg hp.not_idle] at hbody
  obtain ⟨b, s₃, h₃, hbody⟩ := bind_eq_ok.mp hbody
  have hparams₃ : s₃.params = s.params := (keepsParams_tickTimeslice _ _ _ h₃).trans hparams₂
  cases b with
  | true =>
    have hzero : (s.params s.currentTcb).1 = 0 := by
      refine h.resolve_right fun hlen => ?_
      rw [← hparams₂] at hlen
      have hfalse := tickTimeslice_endless hlen h₃
      cases hfalse
    rw [← hparams₃] at hzero
    rw [if_pos rfl] at hbody
    rw [chargeQuantum_zero hzero hbody, hparams₃]
  | false =>
    rw [if_neg Bool.false_ne_true] at hbody
    split at hbody
    · cases hbody
      rw [hparams₃]
    · obtain ⟨_, s₄, h₄, hbody⟩ := bind_eq_ok.mp hbody
      rw [keepsParams_switchTo _ _ _ hbody, keepsParams_preemptThread _ _ _ h₄, hparams₃]

theorem KState.QuantumRun.unlimited (h : s.Unlimited p) (hrun : s.QuantumRun p n t) :
    t.Unlimited p := by
  induction hrun with
  | start => exact h
  | tick _ halone _ ht ih =>
    have hsame := ih.tick halone ht
    rw [Unlimited, hsame]
    exact ih
  | other _ hsame ih =>
    rw [Unlimited, hsame]
    exact ih

/-- The setting. -/
theorem scheduleTime_params (hq : quantum.isPeriod) (ht : timeslice.isPeriod)
    (h : scheduleTime p quantum timeslice s = .ok ((), t)) :
    t.params p = (quantum.getMicroseconds, timeslice.getMicroseconds) := by
  refine wp_ok (E := fun _ => True) (Q := fun _ t => t.params p = _) ?_ h
  simp only [scheduleTime, hq, ht, if_true, wp_bind, setTotalQuantum, wp_modTcb]
  refine keepsParams_enqueueReady.wp fun _ u hu => ?_
  have htotal := congrArg Prod.fst (congrFun hu p)
  simp only [KState.params, Tcb.params, Function.update_self] at htotal
  simp only [setTimesliceLength, wp_modTcb, KState.params, Tcb.params, Function.update_self, htotal,
    Prod.mk.injEq, and_true]
  split
  · rename_i hnever
    rw [eq_of_beq hnever]
    rfl
  · rfl

/-! ## The kernel ticks the account -/

/-- The outline with another timeslice. -/
def Outline.setSlice (o : Outline) (w : Word) : Outline := { o with queueTimeslice := w }

/-- The thread can run, has its ready queue for itself, and none of a higher priority can run. -/
structure KState.FirstChoice (s : KState) (R : Int → List TcbPtr) (p : TcbPtr) : Prop where
  not_idle : p ≠ .idle
  runnable : s.runnable p
  priority : 0 ≤ (s.tcb p).priority
  queues : s.ReadyQueues R
  bound : s.PrioBound R
  own : ∀ q ∈ R (s.tcb p).priority, q = p
  lower : ∀ n, ∀ q ∈ R n, s.runnable q → n ≤ (s.tcb p).priority

theorem KState.ReadyQueues.congr (h : s.ReadyQueues R)
    (hlists : (t.readyList, t.prioQueue) = (s.readyList, s.prioQueue))
    (htcb : ∀ q, ((t.tcb q).queueState.ready, (t.tcb q).priority) =
      ((s.tcb q).queueState.ready, (s.tcb q).priority)) : t.ReadyQueues R := by
  simp only [Prod.mk.injEq] at hlists htcb
  refine ⟨?_, fun q n => ?_, h.idle⟩
  · rw [hlists.1, hlists.2]
    exact h.rings
  · rw [(htcb q).1, (htcb q).2]
    exact h.bit q n

/-- The choice does not change with other queues of the same threads, or fewer ones. -/
theorem KState.FirstChoice.of_queues (h : s.FirstChoice R p) {R' : Int → List TcbPtr}
    (hq : t.ReadyQueues R') (hb : t.PrioBound R')
    (htcb : ∀ q, ((t.tcb q).priority, (t.tcb q).state) = ((s.tcb q).priority, (s.tcb q).state))
    (hsub : ∀ n, ∀ q ∈ R' n, q ∈ R n ∨ q = p ∧ n = (s.tcb p).priority) : t.FirstChoice R' p := by
  simp only [Prod.mk.injEq] at htcb
  have hrun : ∀ q, t.runnable q = s.runnable q := fun q => by
    rw [KState.runnable, KState.runnable, (htcb q).2]
  refine ⟨h.not_idle, ?_, ?_, hq, hb, ?_, ?_⟩
  · rw [hrun]
    exact h.runnable
  · rw [(htcb p).1]
    exact h.priority
  · intro q hqp
    rw [(htcb p).1] at hqp
    rcases hsub _ q hqp with hin | ⟨rfl, -⟩
    · exact h.own q hin
    · rfl
  · intro n q hqn hok
    rw [(htcb p).1]
    rw [hrun] at hok
    rcases hsub n q hqn with hin | ⟨-, rfl⟩
    · exact h.lower n q hin hok
    · exact Int.le_refl _

theorem outline_tcb (h : t.outline = s.outline) (q : TcbPtr) :
    ((t.tcb q).priority, (t.tcb q).state) = ((s.tcb q).priority, (s.tcb q).state) := by
  have htcb := congrFun (congrArg Outline.tcb h) q
  simp only [KState.outline, Tcb.outline, Prod.mk.injEq] at htcb
  rw [htcb.2.1, htcb.2.2.1]

theorem eq_singleton_of_nodup {L : List TcbPtr} (hp : p ∈ L) (hself : ∀ q ∈ L, q = p)
    (hnodup : L.Nodup) : L = [p] := by
  have hrep := List.eq_replicate_of_mem hself
  rw [hrep, List.nodup_replicate] at hnodup
  have hpos := List.length_pos_of_mem hp
  rw [hrep, Nat.le_antisymm hnodup hpos, List.replicate_one]

/-- The thread enters its queue. -/
theorem wp_enqueueReady_first {b : Bool} (h : s.FirstChoice R p) :
    wp E (enqueueReady p b) (fun _ t => ∃ R', t.FirstChoice R' p ∧
      R' (s.tcb p).priority = [p] ∧ t.outline = s.outline) s := by
  refine wp_mono (wp_and (wp_enqueueReady_rings h.queues.rings h.queues.bit)
    (keepsOutline_enqueueReady.wp fun _ _ h => h)) ?_
  rintro _ t ⟨⟨R', hrings, hmem, htcb, -, hmax, hnew⟩, hout⟩
  have hidle : ∀ n, TcbPtr.idle ∉ R' n := by
    intro n hn
    rcases (hmem _ _).mp hn with hn | ⟨hn, -⟩
    · exact h.queues.idle n hn
    · exact h.not_idle hn.symm
  have hbound : t.PrioBound R' := by
    intro n q hqn
    rcases (hmem _ _).mp hqn with hqn | ⟨rfl, rfl⟩
    · exact ⟨(h.bound n q hqn).1, (h.bound n q hqn).2.trans hmax⟩
    · refine ⟨h.priority, ?_⟩
      cases hbit : (s.tcb q).queueState.ready with
      | false => exact hnew hbit
      | true => exact (h.bound _ q ((h.queues.bit _ _).mpr ⟨hbit, rfl⟩)).2.trans hmax
  have hqueues : t.ReadyQueues R' := ⟨hrings, readyBit_enqueued h.queues.bit hmem htcb, hidle⟩
  refine ⟨R', h.of_queues hqueues hbound (outline_tcb hout) fun n q => (hmem q n).mp, ?_, hout⟩
  refine eq_singleton_of_nodup ((hmem _ _).mpr (.inr ⟨rfl, rfl⟩)) (fun q hq => ?_)
    (hrings.ring _).cyc.nodup
  rcases (hmem _ _).mp hq with hq | ⟨hq, -⟩
  · exact h.own q hq
  · exact hq

/-- The end of a timeslice: the thread gets another one. -/
theorem wp_endOfTimeslice_first (h : s.FirstChoice R p) :
    wp E (endOfTimeslice p) (fun _ t => ∃ R', t.FirstChoice R' p ∧
      t.outline = s.outline.setSlice (s.queueTimeslice + (s.tcb p).timesliceLength)) s := by
  rw [endOfTimeslice, wp_bind]
  refine wp_mono (wp_enqueueReady_first h) ?_
  rintro _ t ⟨R', h', hone, hout⟩
  have htcb := congrFun (congrArg Outline.tcb hout) p
  simp only [KState.outline, Tcb.outline, Prod.mk.injEq] at htcb
  obtain ⟨-, hsame, -, -, hlen⟩ := htcb
  have hring : IsRing t.readyList (t.prioQueue (s.tcb p).priority) [p] :=
    hone ▸ h'.queues.rings.ring _
  have hhead : t.prioQueue (s.tcb p).priority = some p := hring.head_eq
  have hlink : t.readyList p = ⟨some p, some p⟩ := Cyc.singleton_iff.mp hring.cyc
  have hprioQueue : Function.update t.prioQueue (s.tcb p).priority (some p) = t.prioQueue :=
    Function.update_eq_self_iff.mpr hhead.symm
  simp only [wp_bind, wp_readTcb, wp_gets, setPrioQueue, wp_modify, wp_modTcb, hlink, hsame,
    hprioQueue, ofLinks, wp_pure, setQueueTimeslice, Function.update_self, hlen]
  refine ⟨R', h'.of_queues (h'.queues.congr rfl fun q => ?_) h'.bound (fun q => ?_)
    (fun _ _ => .inl), ?_⟩
  · rcases eq_or_ne q p with rfl | hne
    · simp [hsame]
    · simp [hne]
  · rcases eq_or_ne q p with rfl | hne
    · simp [hsame]
    · simp [hne]
  · have hslice : t.queueTimeslice = s.queueTimeslice := congrArg Outline.queueTimeslice hout
    rw [← hout, hslice]
    simp only [KState.outline, Outline.setSlice, Outline.mk.injEq, true_and]
    funext q
    rcases eq_or_ne q p with rfl | hne
    · simp [Tcb.outline, hsame, hlen]
    · simp [hne]

/-- The thread is chosen again. -/
theorem wp_reschedule_first (h : s.FirstChoice R p) :
    wp (fun _ => False) (reschedule p) (fun _ t => ∃ R', t.FirstChoice R' p ∧
      t.outline = s.outline) s := by
  rw [reschedule, wp_bind]
  refine wp_mono (wp_enqueueReady_first h) ?_
  rintro _ u ⟨R₁, h₁, hone, hout₁⟩
  have hprio : (u.tcb p).priority = (s.tcb p).priority := (Prod.mk.inj (outline_tcb hout₁ p)).1
  obtain ⟨r, t, R₂, hrun, hq, hb, hnext⟩ := findNextThread_selects h₁.queues h₁.bound
  have hout₂ : t.outline = u.outline := keepsOutline_findNextThread _ _ _ hrun
  have hpR : p ∈ R₁ (s.tcb p).priority := hone ▸ List.mem_singleton_self p
  have hr : r = p := by
    have hnot : r ≠ .idle := by
      intro hidle
      have hno := hnext.idle_iff.mp hidle _ p hpR
      rw [h₁.runnable] at hno
      cases hno
    obtain ⟨n, hfind, hmax⟩ := hnext.first hnot
    have hle := hmax _ p hpR h₁.runnable
    have hge := h₁.lower n r (List.mem_of_find?_eq_some hfind) (List.find?_some hfind)
    rw [hprio] at hge
    obtain rfl : n = (s.tcb p).priority := Int.le_antisymm hge hle
    have hmem := List.mem_of_find?_eq_some hfind
    rw [hone] at hmem
    exact List.mem_singleton.mp hmem
  have hend : t.FirstChoice R₂ p := h₁.of_queues hq hb (outline_tcb hout₂) fun n q hqn =>
    .inl ((hnext.suffix n).subset hqn)
  rw [wp_bind, schedule, wp_bind]
  refine wp_mono (Q := fun x y => x = p ∧ y = t) (wp_iff_exists.mpr ⟨r, t, hrun, hr, rfl⟩) ?_
  rintro _ _ ⟨rfl, rfl⟩
  rw [wp_ite, if_pos rfl]
  exact ⟨R₂, hend, hout₂.trans hout₁⟩

/-! ## The kernel ticks the account -/

namespace KState

/-- What the thread may still use, as long as it is the current one. -/
def account (s : KState) (p : TcbPtr) : QuantumAccount :=
  ⟨(s.tcb p).totalQuantum, s.queueTimeslice⟩

/-- The thread runs alone, and no wakeup is to come. -/
structure Exclusive (s : KState) (R : Int → List TcbPtr) (p : TcbPtr) : Prop where
  alone : s.RunsAlone p
  activated : (s.tcb p).isActivated
  first : s.FirstChoice R p
  asleep : s.wakeupList = none

theorem Exclusive.setTime {w : Word} (h : s.Exclusive R p) :
    ({ s with currentTime := w } : KState).Exclusive R p where
  alone := ⟨h.alone.current, h.alone.not_idle, h.alone.undelayed, h.alone.alone⟩
  activated := h.activated
  first := h.first.of_queues (h.first.queues.congr rfl fun _ => rfl) h.first.bound (fun _ => rfl)
    fun _ _ => .inl
  asleep := h.asleep

/-- What the ready queues have nothing to do with. -/
theorem Exclusive.of_outline (h : s.Exclusive R p) {R' : Int → List TcbPtr}
    (hfirst : t.FirstChoice R' p) (hcurrent : t.currentTcb = s.currentTcb)
    (hutcb : t.utcb = s.utcb) (hwakeup : t.wakeupList = s.wakeupList)
    (htcb : ∀ q, ((t.tcb q).utcb, (t.tcb q).priority, (t.tcb q).state) =
      ((s.tcb q).utcb, (s.tcb q).priority, (s.tcb q).state)) : t.Exclusive R' p := by
  simp only [Prod.mk.injEq] at htcb
  refine ⟨⟨hcurrent.trans h.alone.current, h.alone.not_idle, ?_, fun q hq hprio => ?_⟩, ?_, hfirst,
    hwakeup.trans h.asleep⟩
  · rw [utcbOf, (htcb p).1, hutcb]
    exact h.alone.undelayed
  · rw [(htcb q).2.1, (htcb p).2.1] at hprio
    rw [runnable, (htcb q).2.2]
    exact h.alone.alone q hq hprio
  · rw [Tcb.isActivated, (htcb p).1]
    exact h.activated

end KState

/-- What the ready queues leave alone, but for the timeslice. -/
theorem KState.Exclusive.of_setSlice (h : s.Exclusive R p) {R' : Int → List TcbPtr} {w : Word}
    (hfirst : t.FirstChoice R' p) (hout : t.outline = s.outline.setSlice w) :
    t.Exclusive R' p ∧ t.params p = s.params p ∧ t.queueTimeslice = w := by
  have htcb : ∀ q, (t.tcb q).outline = (s.tcb q).outline := congrFun (congrArg Outline.tcb hout)
  simp only [Tcb.outline, Prod.mk.injEq] at htcb
  refine ⟨h.of_outline hfirst (congrArg Outline.currentTcb hout) (congrArg Outline.utcb hout)
    (congrArg Outline.wakeupList hout) fun q => ?_, ?_, congrArg Outline.queueTimeslice hout⟩
  · rw [(htcb q).1, (htcb q).2.1, (htcb q).2.2.1]
  · rw [KState.params, KState.params, Tcb.params, Tcb.params, (htcb p).2.2.2.1, (htcb p).2.2.2.2]

/-- The quantum in the TCB is changed. -/
theorem KState.Exclusive.setTcb {c : Tcb} (h : s.Exclusive R p)
    (hc : (c.utcb, c.priority, c.state, c.queueState) =
      ((s.tcb p).utcb, (s.tcb p).priority, (s.tcb p).state, (s.tcb p).queueState)) :
    ({ s with tcb := Function.update s.tcb p c } : KState).Exclusive R p := by
  simp only [Prod.mk.injEq] at hc
  obtain ⟨hutcb, hprio, hstate, hqueue⟩ := hc
  refine h.of_outline (h.first.of_queues (h.first.queues.congr rfl fun q => ?_) h.first.bound
    (fun q => ?_) fun _ _ => .inl) rfl rfl rfl fun q => ?_
  all_goals
    rcases eq_or_ne q p with rfl | hq
    · simp [hutcb, hprio, hstate, hqueue]
    · simp [hq]

/-- With nobody to wake up, a tick is the one of the timeslice. -/
theorem tick_asleep (h : s.Exclusive R p) : ∃ w : Word,
    tickSlice s = tickTimeslice p p { s with currentTime := w } ∧
      handleTimerInterrupt s = (do
        if ← tickTimeslice p p then chargeQuantum p else pure ()) { s with currentTime := w } := by
  obtain rfl := h.alone.current
  obtain ⟨w, hw⟩ : ∃ w, w = s.currentTime + timerTickLength := ⟨_, rfl⟩
  have hwakeup : parseWakeupQueues s.currentTcb { s with currentTime := w } =
      .ok (s.currentTcb, { s with currentTime := w }) := by
    rw [parseWakeupQueues, bind_apply, gets_apply]
    dsimp only
    rw [h.asleep]
    rfl
  refine ⟨w, ?_, ?_⟩
  · rw [tickSlice, tickTime, bind_apply, modify_apply, ← hw]
    dsimp only
    rw [bind_apply, getCurrentTcb, gets_apply]
    dsimp only
    rw [bind_apply, hwakeup]
    dsimp only
    rw [if_neg h.alone.not_idle]
  · rw [handleTimerInterrupt, tickTime, bind_apply, modify_apply, ← hw]
    dsimp only
    rw [bind_apply, getCurrentTcb, gets_apply]
    dsimp only
    rw [bind_apply, hwakeup]
    dsimp only
    rw [if_neg h.alone.not_idle, if_pos rfl]

/-- The timeslice part of a tick. -/
theorem wp_tickTimeslice_exclusive (h : s.Exclusive R p)
    (hlen : (s.tcb p).timesliceLength ≠ 0) :
    wp (fun _ => False) (tickTimeslice p p) (fun b t => ∃ R', t.Exclusive R' p ∧
      t.params p = s.params p ∧
      b = !(0 : Word).slt (s.queueTimeslice - timerTickLength) ∧
      t.queueTimeslice = s.queueTimeslice - timerTickLength +
        if b then (s.tcb p).timesliceLength else 0) s := by
  obtain ⟨left, hleft⟩ : ∃ left, left = s.queueTimeslice - timerTickLength := ⟨_, rfl⟩
  obtain ⟨x, hx⟩ := Option.isSome_iff_exists.mp h.activated
  have hdelay : (s.utcb x).preemptFlags.isDelayed = false :=
    KState.utcbOf_eq hx ▸ h.alone.undelayed
  rw [tickTimeslice, wp_bind, wp_readTcb, wp_ite, if_neg hlen, wp_bind, wp_gets, ← hleft]
  dsimp only
  rw [wp_bind, setQueueTimeslice, wp_modify, wp_ite]
  have hfirst : ({ s with queueTimeslice := left } : KState).FirstChoice R p :=
    h.first.of_queues (h.first.queues.congr rfl fun _ => rfl) h.first.bound (fun _ => rfl)
      fun _ _ => .inl
  split
  · rename_i hmore
    refine ⟨R, h.of_outline hfirst rfl rfl rfl fun _ => rfl, rfl, ?_, ?_⟩
    · rw [hmore]
      rfl
    · exact (BitVec.add_zero _).symm
  · rename_i hend
    rw [wp_bind, wp_readUtcb]
    refine ⟨fun hno => ?_, fun y hy => ?_⟩
    · rw [hx] at hno
      cases hno
    · cases hx.symm.trans hy
      rw [wp_bind, delayPreemption, if_pos rfl, wp_pure, hdelay, Bool.false_and, wp_ite,
        if_neg Bool.false_ne_true, wp_bind]
      refine wp_mono (wp_endOfTimeslice_first hfirst) ?_
      rintro _ t ⟨R', hfirst', hout⟩
      obtain ⟨hexclusive, hparams, hslice⟩ := h.of_setSlice hfirst' (hout.trans rfl)
      refine ⟨R', hexclusive, hparams, ?_, hslice⟩
      rw [Bool.eq_false_iff.mpr hend]
      rfl

/-- The book-keeping of a quantum that is not used up yet. -/
theorem wp_chargeQuantum_exclusive (h : s.Exclusive R p) (htotal : (s.tcb p).totalQuantum ≠ 0)
    (hlive : (s.tcb p).totalQuantum ≠ totalQuantumExpired) :
    wp (fun _ => False) (chargeQuantum p) (fun _ t => ∃ R', t.Exclusive R' p ∧
      (t.tcb p).timesliceLength = (s.tcb p).timesliceLength ∧
      t.queueTimeslice = s.queueTimeslice ∧
      (t.tcb p).totalQuantum =
        if (s.tcb p).totalQuantum ≤ (s.tcb p).timesliceLength then totalQuantumExpired
        else (s.tcb p).totalQuantum - (s.tcb p).timesliceLength) s := by
  have hend : ∀ {c : Tcb}, (c.utcb, c.priority, c.state, c.queueState) =
      ((s.tcb p).utcb, (s.tcb p).priority, (s.tcb p).state, (s.tcb p).queueState) →
      wp (fun _ => False) (reschedule p) (fun _ t => ∃ R', t.Exclusive R' p ∧
        t.queueTimeslice = s.queueTimeslice ∧ t.params p = c.params)
        { s with tcb := Function.update s.tcb p c } := by
    intro c hc
    have h' := h.setTcb hc
    refine wp_mono (wp_reschedule_first h'.first) ?_
    rintro _ t ⟨R', hfirst, hout⟩
    obtain ⟨hexclusive, hparams, hslice⟩ :=
      h'.of_setSlice (w := s.queueTimeslice) hfirst (hout.trans rfl)
    exact ⟨R', hexclusive, hslice, hparams.trans (congrArg Tcb.params (Function.update_self ..))⟩
  rw [chargeQuantum, wp_bind, wp_readTcb, wp_ite, if_neg htotal, wp_ite, if_neg hlive, wp_ite]
  split
  · rw [wp_bind, wp_modTcb]
    refine wp_mono (hend rfl) ?_
    rintro _ t ⟨R', hexclusive, hslice, hparams⟩
    simp only [KState.params, Tcb.params, Prod.mk.injEq] at hparams
    exact ⟨R', hexclusive, hparams.2, hslice, hparams.1⟩
  · rw [wp_bind, wp_modTcb]
    refine wp_mono (hend rfl) ?_
    rintro _ t ⟨R', hexclusive, hslice, hparams⟩
    simp only [KState.params, Tcb.params, Prod.mk.injEq] at hparams
    exact ⟨R', hexclusive, hparams.2, hslice, hparams.1⟩

/-- A tick of the kernel is a tick of the account. -/
theorem tick_account (h : s.Exclusive R p) (hlen : (s.tcb p).timesliceLength ≠ 0)
    (htotal : (s.tcb p).totalQuantum ≠ 0) :
    match (s.account p).tick (s.tcb p).timesliceLength with
    | none => s.RaisesExpired p
    | some a => ¬s.RaisesExpired p ∧ ∃ t R', handleTimerInterrupt s = .ok ((), t) ∧
        t.Exclusive R' p ∧ (t.tcb p).timesliceLength = (s.tcb p).timesliceLength ∧
        t.account p = a := by
  obtain ⟨w, hslice, hint⟩ := tick_asleep h
  obtain ⟨b, t, htick, R', hexclusive, hparams, hb, hleft⟩ :=
    wp_iff_exists.mp (wp_tickTimeslice_exclusive (h.setTime (w := w)) hlen)
  simp only [KState.params, Tcb.params, Prod.mk.injEq] at hparams
  obtain ⟨htot, hlength⟩ := hparams
  rw [htick] at hslice
  rw [bind_apply, htick] at hint
  dsimp only at hint hb hleft
  rw [KState.account, QuantumAccount.tick]
  dsimp only
  cases hmore : (0 : Word).slt (s.queueTimeslice - timerTickLength) with
  | true =>
    rw [hmore, Bool.not_true] at hb
    subst hb
    rw [if_pos rfl]
    refine ⟨?_, t, R', hint, hexclusive, hlength, ?_⟩
    · rintro ⟨u, hu, -⟩
      rw [hslice] at hu
      cases hu
    · rw [KState.account, htot, hleft]
      exact congrArg _ (BitVec.add_zero _)
  | false =>
    rw [hmore, Bool.not_false] at hb
    subst hb
    rw [if_neg Bool.false_ne_true]
    have hraises : s.RaisesExpired p ↔ (s.tcb p).totalQuantum = totalQuantumExpired := by
      constructor
      · rintro ⟨u, hu, hexp⟩
        rw [hslice] at hu
        cases hu
        exact htot.symm.trans hexp
      · exact fun hexp => ⟨t, hslice, htot.trans hexp⟩
    by_cases hexp : (s.tcb p).totalQuantum = totalQuantumExpired
    · rw [if_pos hexp]
      exact hraises.mpr hexp
    · have htot' : (t.tcb p).totalQuantum = (s.tcb p).totalQuantum := htot
      have hlength' : (t.tcb p).timesliceLength = (s.tcb p).timesliceLength := hlength
      obtain ⟨_, u, hcharge, R'', hexclusive', hlen', hslice', htotal'⟩ := wp_iff_exists.mp
        (wp_chargeQuantum_exclusive hexclusive (htot'.trans_ne htotal) (htot'.trans_ne hexp))
      rw [if_pos rfl, hcharge] at hint
      rw [htot', hlength'] at htotal'
      rw [if_pos rfl] at hleft
      have hnot : ¬s.RaisesExpired p := fun hr => hexp (hraises.mp hr)
      rw [if_neg hexp]
      split
      · rename_i hsome
        split at hsome <;> cases hsome
      · rename_i a hsome
        refine ⟨hnot, u, R'', hint, hexclusive', hlen'.trans hlength', ?_⟩
        rw [KState.account, htotal', hslice', hleft]
        split at hsome
        · rename_i hle
          rw [if_pos hle]
          exact Option.some.inj hsome
        · rename_i hle
          rw [if_neg hle]
          exact Option.some.inj hsome

/-- A tick in front of a run. -/
theorem KState.QuantumRun.prepend {s' : KState} (hp : s.RunsAlone p) (hno : ¬s.RaisesExpired p)
    (htick : handleTimerInterrupt s = .ok ((), s')) (hrun : s'.QuantumRun p n t) :
    s.QuantumRun p (n + 1) t := by
  induction hrun with
  | start => exact .tick .start hp hno htick
  | tick _ halone hraise hnext ih => exact .tick ih halone hraise hnext
  | other _ hsame ih => exact .other ih hsame

/-- The event comes in the kernel when it comes in the account. -/
theorem KState.Exclusive.exists_run (h : s.Exclusive R p) (hlen : (s.tcb p).timesliceLength ≠ 0)
    (htotal : (s.tcb p).totalQuantum ≠ 0)
    (hexp : (s.account p).ExpiresAfter (s.tcb p).timesliceLength n) :
    ∃ t, s.QuantumRun p n t ∧ t.RunsAlone p ∧ t.RaisesExpired p := by
  induction n generalizing s R with
  | zero =>
    have htick := tick_account h hlen htotal
    rw [QuantumAccount.ExpiresAfter] at hexp
    rw [hexp] at htick
    exact ⟨s, .start, h.alone, htick⟩
  | succ n ih =>
    obtain ⟨b, hb, hexp⟩ := hexp
    have htick := tick_account h hlen htotal
    rw [hb] at htick
    obtain ⟨hno, u, R', hint, hu, hlength, haccount⟩ := htick
    have htotal' : (u.tcb p).totalQuantum ≠ 0 := by
      have hb' := (QuantumAccount.tick_cases hlen htotal hb).1
      rwa [← haccount] at hb'
    rw [← haccount, ← hlength] at hexp
    obtain ⟨t, hrun, hend⟩ := ih hu (hlength ▸ hlen) htotal' hexp
    exact ⟨t, hrun.prepend h.alone hno hint, hend⟩

/-- The setting leaves the timeslice that is under way alone. -/
theorem wp_scheduleTime_exclusive (h : s.Exclusive R p) (hq : quantum.isPeriod)
    (ht : timeslice.isPeriod) :
    wp (fun _ => False) (scheduleTime p quantum timeslice) (fun _ t => ∃ R', t.Exclusive R' p ∧
      t.queueTimeslice = s.queueTimeslice) s := by
  simp only [scheduleTime, hq, ht, if_true, wp_bind, setTotalQuantum, wp_modTcb]
  obtain ⟨c, hc⟩ : ∃ c : Tcb, c = { s.tcb p with
    totalQuantum := if quantum.isNever then 0 else quantum.getMicroseconds
    currentTimeslice := (s.tcb p).timesliceLength } := ⟨_, rfl⟩
  rw [← hc]
  have h' := h.setTcb (c := c) (by rw [hc])
  refine wp_mono (wp_enqueueReady_first h'.first) ?_
  rintro _ u ⟨R', hfirst, -, hout⟩
  obtain ⟨hu, -, hslice⟩ := h'.of_setSlice (w := s.queueTimeslice) hfirst (hout.trans rfl)
  rw [setTimesliceLength, wp_modTcb]
  exact ⟨R', hu.setTcb rfl, hslice⟩

/-- A thread alone on the processor, with the timeslice `w` left. -/
def KState.lone (p : TcbPtr) (w : Word) : KState :=
  { KState.zero .sample with
    tcb := fun q =>
      if q = p then { Tcb.zero with state := .running, utcb := some .kernel, priority := 1 }
      else .zero
    queueTimeslice := w
    currentTcb := p }

theorem KState.lone_exclusive (hp : p ≠ .idle) (w : Word) :
    (lone p w).Exclusive (fun _ => []) p := by
  have hself : (lone p w).tcb p =
      { Tcb.zero with state := .running, utcb := some .kernel, priority := 1 } := if_pos rfl
  have hother : ∀ q, q ≠ p → (lone p w).tcb q = .zero := fun q hq => if_neg hq
  have hready : ∀ q, ((lone p w).tcb q).queueState.ready = false := by
    intro q
    by_cases hq : q = p
    · rw [hq, hself]
      rfl
    · rw [hother q hq]
      rfl
  have hqueues : (lone p w).ReadyQueues fun _ => [] := by
    refine ⟨⟨fun n => ⟨rfl, .nil⟩, fun h => by cases h⟩, fun q n => ?_, fun n => List.not_mem_nil⟩
    rw [hready]
    simp
  have hflags : Utcb.zero.preemptFlags.isDelayed = false := by decide +kernel
  refine ⟨⟨rfl, hp, ?_, fun q hq hprio => ?_⟩, ?_, ⟨hp, ?_, ?_, hqueues, nofun, nofun, nofun⟩,
    rfl⟩
  · rw [utcbOf, hself]
    exact hflags
  · rw [hother q hq, hself] at hprio
    exact absurd hprio (by decide)
  · rw [hself]
    rfl
  · rw [runnable, hself]
    rfl
  · rw [hself]
    decide

/-- A run with any time left in the timeslice that is under way at the setting. -/
theorem exists_quantumRun (hp : p ≠ .idle) (hq : quantum.isPeriod) (ht : timeslice.isPeriod)
    (hlen : timeslice.getMicroseconds ≠ 0) (htotal : quantum.getMicroseconds ≠ 0) {w : Word}
    (hexp : QuantumAccount.ExpiresAfter timeslice.getMicroseconds n
      ⟨quantum.getMicroseconds, w⟩) :
    ∃ r s t, scheduleTime p quantum timeslice r = .ok ((), s) ∧ s.QuantumRun p n t ∧
      t.RunsAlone p ∧ t.RaisesExpired p := by
  obtain ⟨_, s, hset, R, hs, hslice⟩ := wp_iff_exists.mp
    (wp_scheduleTime_exclusive (KState.lone_exclusive hp w) hq ht)
  have hparams := scheduleTime_params hq ht hset
  simp only [KState.params, Tcb.params, Prod.mk.injEq] at hparams
  obtain ⟨t, hrun, hend⟩ := hs.exists_run (n := n) (hparams.2.trans_ne hlen)
    (hparams.1.trans_ne htotal) (by
      rw [KState.account, hparams.1, hparams.2, hslice]
      exact hexp)
  exact ⟨_, s, t, hset, hrun, hend⟩

/-- The total quantum is charged as it is set if and only if there is none, or no timeslice, and so
never an event. -/
theorem chargesQuantum_iff (hp : p ≠ .idle) (hq : quantum.isPeriod) (ht : timeslice.isPeriod) :
    ChargesQuantum p quantum timeslice ↔
      quantum.getMicroseconds = 0 ∨ timeslice.getMicroseconds = 0 := by
  constructor
  · intro hall
    by_contra hno
    obtain ⟨htotal, hlen⟩ := not_or.mp hno
    -- a tick more in the timeslice at the setting moves the event by a tick
    obtain ⟨n, hn⟩ := QuantumAccount.exists_expiresAfter
      (a := ⟨quantum.getMicroseconds, 1⟩) hlen htotal
    obtain ⟨r, s, t, hset, hrun, halone, hend⟩ := exists_quantumRun hp hq ht hlen htotal hn
    obtain ⟨r', s', t', hset', hrun', halone', hend'⟩ :=
      exists_quantumRun hp hq ht hlen htotal (hn.later (by decide))
    have hfirst := hall r s t n hset hrun halone hend
    have hsecond := hall r' s' t' (n + 1) hset' hrun' halone' hend'
    have htick : timerTickLength.toNat = 2000 := rfl
    rw [htick] at hfirst hsecond
    omega
  · intro hunlimited r s t n hset hrun halone hend
    have hs : s.Unlimited p := by
      rw [KState.Unlimited, scheduleTime_params hq ht hset]
      exact hunlimited
    exact absurd hend ((hrun.unlimited hs).not_raises halone.current)

/-- A thread without a total quantum. -/
theorem exists_chargesQuantum : ∃ (p : TcbPtr) (quantum timeslice : Time),
    0 < timeslice.getMicroseconds ∧ ChargesQuantum p quantum timeslice := by
  have hp : getTcb sigma0Tid ≠ .idle := nofun
  have hq : Time.isPeriod .never = true := by decide +kernel
  have ht : Time.isPeriod ⟨0x07e8⟩ = true := by decide +kernel
  have hzero : Time.getMicroseconds .never = 0 := by decide +kernel
  exact ⟨getTcb sigma0Tid, .never, ⟨0x07e8⟩, by decide +kernel,
    (chargesQuantum_iff hp hq ht).mpr (.inl hzero)⟩

/-- A quantum of one timeslice of one tick lasts two ticks, from a fresh timeslice. -/
theorem not_forall_chargesQuantum : ¬∀ (p : TcbPtr) (quantum timeslice : Time), p ≠ .idle →
    quantum.isPeriod → timeslice.isPeriod → 0 < timeslice.getMicroseconds →
    ChargesQuantum p quantum timeslice := by
  intro hall
  have hexp : QuantumAccount.ExpiresAfter (Time.getMicroseconds ⟨0x07e8⟩) 1
      ⟨Time.getMicroseconds ⟨0x07e8⟩, Time.getMicroseconds ⟨0x07e8⟩⟩ :=
    ⟨⟨totalQuantumExpired, 2000⟩, by rfl, by rfl⟩
  obtain ⟨r, s, t, hset, hrun, halone, hend⟩ := exists_quantumRun (p := getTcb sigma0Tid) nofun
    (by decide +kernel) (by decide +kernel) (by decide +kernel) (by decide +kernel) hexp
  have hcharge := hall (getTcb sigma0Tid) ⟨0x07e8⟩ ⟨0x07e8⟩ nofun (by decide +kernel)
    (by decide +kernel) (by decide +kernel) r s t 1 hset hrun halone hend
  revert hcharge
  decide +kernel

end L4Thread
