import L4Thread.Theory.Unwind

/-!
# The queues as lists

The ready queues, the wakeup queue and the send queues are circular lists through fields of the
TCBs, and the queue state of a TCB says in which kinds of them it is linked. `Queues` are the lists
they stand for; a state represents them if the links are circles with these members and the bits
are set for the members. The operations of the scheduler and of the IPC path insert and remove one
thread.
-/

namespace L4Thread

open TrapM Kernel Ring

variable {s t : KState} {p q : TcbPtr} {E : Trap → Prop} {α : Type}

/-- The members of the queues, in order. -/
structure Queues where
  /-- The ready queue of a priority. -/
  ready : Int → List TcbPtr
  wakeup : List TcbPtr
  /-- The send queue of a thread. -/
  send : TcbPtr → List TcbPtr

variable {Q : Queues}

/-- The links and bits of the state are those of the queues. -/
structure KState.Represents (s : KState) (Q : Queues) : Prop where
  ready : Rings s.readyList s.prioQueue Q.ready
  readyBit : ∀ p n, p ∈ Q.ready n ↔
    (s.tcb p).queueState.ready = true ∧ (s.tcb p).priority = n
  wakeup : IsRing s.waitList s.wakeupList Q.wakeup
  wakeupBit : ∀ p, p ∈ Q.wakeup ↔ (s.tcb p).queueState.wakeup = true
  send : Rings s.sendList (fun p => (s.tcb p).sendHead) Q.send
  sendBit : ∀ p, (∃ o, p ∈ Q.send o) ↔ (s.tcb p).queueState.send = true

/-! ## Computations outside the queues -/

/-- What a TCB has to do with queues. -/
@[grind] def Tcb.queued (c : Tcb) : Int × QueueState × Option TcbPtr :=
  (c.priority, c.queueState, c.sendHead)

/-- The queue part of the state. -/
structure QueuePart where
  tcb : TcbPtr → Int × QueueState × Option TcbPtr
  readyList : TcbPtr → Link TcbPtr
  waitList : TcbPtr → Link TcbPtr
  sendList : TcbPtr → Link TcbPtr
  prioQueue : Int → Option TcbPtr
  wakeupList : Option TcbPtr

def KState.queues (s : KState) : QueuePart :=
  ⟨fun p => (s.tcb p).queued, s.readyList, s.waitList, s.sendList, s.prioQueue, s.wakeupList⟩

abbrev KeepsQueues (x : Kernel α) : Prop := Keeps KState.queues x

theorem KState.Represents.congr (h : s.Represents Q) (ht : t.queues = s.queues) :
    t.Represents Q := by
  simp only [KState.queues, QueuePart.mk.injEq] at ht
  obtain ⟨htcb, hready, hwait, hsend, hprio, hwakeup⟩ := ht
  have hp : ∀ p, (t.tcb p).priority = (s.tcb p).priority ∧
      (t.tcb p).queueState = (s.tcb p).queueState ∧ (t.tcb p).sendHead = (s.tcb p).sendHead := by
    intro p
    simpa only [Tcb.queued, Prod.mk.injEq] using congrFun htcb p
  refine ⟨?_, fun p n => ?_, ?_, fun p => ?_, ?_, fun p => ?_⟩
  · rw [hready, hprio]
    exact h.ready
  · rw [(hp p).1, (hp p).2.1]
    exact h.readyBit p n
  · rw [hwait, hwakeup]
    exact h.wakeup
  · rw [(hp p).2.1]
    exact h.wakeupBit p
  · have hhead : (fun p => (t.tcb p).sendHead) = fun p => (s.tcb p).sendHead :=
      funext fun p => (hp p).2.2
    rw [hsend, hhead]
    exact h.send
  · rw [(hp p).2.1]
    exact h.sendBit p

@[grind ←] theorem keepsQueues_modTcb {f : Tcb → Tcb} (h : ∀ c, (f c).queued = c.queued) :
    KeepsQueues (modTcb p f) := by
  refine .modify fun s => ?_
  simp only [KState.queues, QueuePart.mk.injEq, and_true]
  funext q
  rcases eq_or_ne q p with rfl | hq
  · simp [h]
  · simp [hq]

@[grind ←] theorem keepsQueues_modUtcb {f : Utcb → Utcb} : KeepsQueues (modUtcb p f) :=
  .bind keeps_getUtcb fun _ => .modify fun _ => rfl

/-- A computation whose result has other ready queues only. -/
theorem KState.Represents.withReady {ready : Int → List TcbPtr} (h : s.Represents Q)
    (hrings : Rings t.readyList t.prioQueue ready)
    (hbit : ∀ p n, p ∈ ready n ↔ (t.tcb p).queueState.ready = true ∧ (t.tcb p).priority = n)
    (hlists : (t.waitList, t.wakeupList, t.sendList) = (s.waitList, s.wakeupList, s.sendList))
    (htcb : ∀ p, ((t.tcb p).queueState.wakeup, (t.tcb p).queueState.send, (t.tcb p).sendHead) =
      ((s.tcb p).queueState.wakeup, (s.tcb p).queueState.send, (s.tcb p).sendHead)) :
    t.Represents { Q with ready } := by
  simp only [Prod.mk.injEq] at hlists htcb
  have hhead : (fun p => (t.tcb p).sendHead) = fun p => (s.tcb p).sendHead :=
    funext fun p => (htcb p).2.2
  refine ⟨hrings, hbit, ?_, fun p => ?_, ?_, fun p => ?_⟩
  · rw [hlists.1, hlists.2.1]
    exact h.wakeup
  · rw [(htcb p).1]
    exact h.wakeupBit p
  · rw [hlists.2.2, hhead]
    exact h.send
  · rw [(htcb p).2.1]
    exact h.sendBit p

/-! ## Ready queues -/

/-- `p` is put into the ready queue of its priority; the ready queues alone. -/
theorem wp_enqueueReady_rings {b : Bool} {R : Int → List TcbPtr}
    (hrings : Rings s.readyList s.prioQueue R)
    (hbits : ∀ p n, p ∈ R n ↔ (s.tcb p).queueState.ready = true ∧ (s.tcb p).priority = n) :
    wp E (enqueueReady p b) (fun _ t => ∃ ready, Rings t.readyList t.prioQueue ready ∧
      (∀ x n, x ∈ ready n ↔ x ∈ R n ∨ x = p ∧ n = (s.tcb p).priority) ∧
      t.tcb = Function.update s.tcb p
        { s.tcb p with queueState := { (s.tcb p).queueState with ready := true } } ∧
      (t.waitList, t.wakeupList, t.sendList) = (s.waitList, s.wakeupList, s.sendList) ∧
      s.maxPrio ≤ t.maxPrio ∧
      ((s.tcb p).queueState.ready = false → (s.tcb p).priority ≤ t.maxPrio)) s := by
  rw [enqueueReady, wp_bind, wp_readTcb, wp_ite]
  split
  · rename_i hbit
    refine ⟨R, hrings, fun x n => ⟨.inl, ?_⟩, (Function.update_eq_self_iff.mpr ?_).symm, rfl,
      Int.le_refl _, fun hno => ?_⟩
    · rintro (hx | ⟨rfl, rfl⟩)
      · exact hx
      · exact (hbits x _).mpr ⟨hbit, rfl⟩
    · rw [← hbit]
    · rw [hbit] at hno
      cases hno
  · rename_i hbit
    have hp : ∀ n, p ∉ R n := fun n hn => hbit ((hbits p n).mp hn).1
    obtain ⟨head, links, L, henq, hrings, hL⟩ : ∃ head links L,
        (if b then Ring.enqueueHead (s.prioQueue (s.tcb p).priority) s.readyList p
          else Ring.enqueueTail (s.prioQueue (s.tcb p).priority) s.readyList p) =
            some (head, links) ∧
        Rings links (Function.update s.prioQueue (s.tcb p).priority head)
          (Function.update R (s.tcb p).priority L) ∧
        ∀ x, x ∈ L ↔ x ∈ R (s.tcb p).priority ∨ x = p := by
      cases b with
      | true =>
        obtain ⟨head, links, henq, hrings⟩ := hrings.enqueueHead hp (s.tcb p).priority
        exact ⟨head, links, _, henq, hrings, fun x => by simp [or_comm]⟩
      | false =>
        obtain ⟨head, links, henq, hrings⟩ := hrings.enqueueTail hp (s.tcb p).priority
        exact ⟨head, links, _, henq, hrings, fun x => by simp⟩
    simp only [wp_bind, wp_gets, id, henq, ofLinks, wp_pure, setReadyQueue, wp_modify, setReady,
      wp_modTcb, setMaxPrio]
    refine ⟨Function.update R (s.tcb p).priority L, hrings, fun x n => ?_, trivial, trivial,
      Int.le_max_right _ _, fun _ => Int.le_max_left _ _⟩
    rcases eq_or_ne n (s.tcb p).priority with rfl | hn
    · simp [hL]
    · simp [hn]

/-- The bits after `p` is put into the ready queue of its priority. -/
theorem readyBit_enqueued {R R' : Int → List TcbPtr}
    (hbits : ∀ p n, p ∈ R n ↔ (s.tcb p).queueState.ready = true ∧ (s.tcb p).priority = n)
    (hmem : ∀ x n, x ∈ R' n ↔ x ∈ R n ∨ x = p ∧ n = (s.tcb p).priority)
    (htcb : t.tcb = Function.update s.tcb p
      { s.tcb p with queueState := { (s.tcb p).queueState with ready := true } })
    (x : TcbPtr) (n : Int) :
    x ∈ R' n ↔ (t.tcb x).queueState.ready = true ∧ (t.tcb x).priority = n := by
  rw [hmem, hbits, htcb]
  rcases eq_or_ne x p with rfl | hx
  · simp only [Function.update_self, true_and]
    constructor
    · rintro (⟨-, hn⟩ | hn)
      · exact hn
      · exact hn.symm
    · exact fun hn => .inr hn.symm
  · simp [hx]

/-- `p` is put into the ready queue of its priority. -/
theorem wp_enqueueReady_queues {b : Bool} (h : s.Represents Q) :
    wp E (enqueueReady p b) (fun _ t => ∃ ready, t.Represents { Q with ready } ∧
      ∀ x n, x ∈ ready n ↔ x ∈ Q.ready n ∨ x = p ∧ n = (s.tcb p).priority) s := by
  refine wp_mono (wp_enqueueReady_rings h.ready h.readyBit) ?_
  rintro _ t ⟨ready, hrings, hmem, htcb, hlists, -⟩
  refine ⟨ready, h.withReady hrings (readyBit_enqueued h.readyBit hmem htcb) hlists fun x => ?_,
    hmem⟩
  rw [htcb]
  rcases eq_or_ne x p with rfl | hx
  · simp
  · simp [hx]

/-- `p` is taken out of its ready queue; the ready queues alone. -/
theorem wp_dequeueReady_rings {R : Int → List TcbPtr}
    (hrings : Rings s.readyList s.prioQueue R)
    (hbits : ∀ p n, p ∈ R n ↔ (s.tcb p).queueState.ready = true ∧ (s.tcb p).priority = n) :
    wp E (dequeueReady p) (fun _ t => ∃ ready, Rings t.readyList t.prioQueue ready ∧
      (∀ x n, x ∈ ready n ↔ x ∈ R n ∧ x ≠ p) ∧
      t.tcb = Function.update s.tcb p
        { s.tcb p with queueState := { (s.tcb p).queueState with ready := false } } ∧
      (t.waitList, t.wakeupList, t.sendList, t.maxPrio) =
        (s.waitList, s.wakeupList, s.sendList, s.maxPrio)) s := by
  rw [dequeueReady, wp_bind, wp_readTcb, wp_ite]
  split
  · rename_i hbit
    have hp : p ∈ R (s.tcb p).priority := (hbits p _).mpr ⟨hbit, rfl⟩
    obtain ⟨head, links, hdeq, hrings'⟩ := hrings.dequeue hp
    simp only [wp_bind, wp_gets, id, hdeq, ofLinks, wp_pure, setReadyQueue, wp_modify, setReady,
      wp_modTcb]
    refine ⟨Function.update R (s.tcb p).priority ((R (s.tcb p).priority).erase p), hrings',
      fun x n => ?_, trivial, trivial⟩
    rcases eq_or_ne n (s.tcb p).priority with rfl | hn
    · simp [(hrings.ring _).cyc.nodup.mem_erase_iff, and_comm]
    · have hne : x ∈ R n → x ≠ p := by
        rintro hx rfl
        exact hn (hrings.disjoint hx hp)
      simpa [hn] using hne
  · rename_i hbit
    refine ⟨R, hrings, fun x n => ⟨fun hx => ⟨hx, ?_⟩, And.left⟩,
      (Function.update_eq_self_iff.mpr ?_).symm, rfl⟩
    · rintro rfl
      exact hbit ((hbits x n).mp hx).1
    · rw [Bool.not_eq_true] at hbit
      rw [← hbit]

/-- The bits after `p` is taken out of its ready queue. -/
theorem readyBit_dequeued {R R' : Int → List TcbPtr}
    (hbits : ∀ p n, p ∈ R n ↔ (s.tcb p).queueState.ready = true ∧ (s.tcb p).priority = n)
    (hmem : ∀ x n, x ∈ R' n ↔ x ∈ R n ∧ x ≠ p)
    (htcb : t.tcb = Function.update s.tcb p
      { s.tcb p with queueState := { (s.tcb p).queueState with ready := false } })
    (x : TcbPtr) (n : Int) :
    x ∈ R' n ↔ (t.tcb x).queueState.ready = true ∧ (t.tcb x).priority = n := by
  rw [hmem, hbits, htcb]
  rcases eq_or_ne x p with rfl | hx
  · simp
  · simp [hx]

/-- `p` is taken out of its ready queue. -/
theorem wp_dequeueReady_queues (h : s.Represents Q) :
    wp E (dequeueReady p) (fun _ t => ∃ ready, t.Represents { Q with ready } ∧
      ∀ x n, x ∈ ready n ↔ x ∈ Q.ready n ∧ x ≠ p) s := by
  refine wp_mono (wp_dequeueReady_rings h.ready h.readyBit) ?_
  rintro _ t ⟨ready, hrings, hmem, htcb, hlists⟩
  simp only [Prod.mk.injEq] at hlists
  obtain ⟨hwait, hwakeup, hsend, -⟩ := hlists
  refine ⟨ready, h.withReady hrings (readyBit_dequeued h.readyBit hmem htcb)
    (by rw [hwait, hwakeup, hsend]) fun x => ?_, hmem⟩
  rw [htcb]
  rcases eq_or_ne x p with rfl | hx
  · simp
  · simp [hx]

/-! ## The wakeup queue -/

/-- `p` is taken out of the wakeup queue. -/
theorem wp_cancelTimeout_queues (h : s.Represents Q) :
    wp E (cancelTimeout p) (fun _ t => t.Represents { Q with wakeup := Q.wakeup.erase p }) s := by
  rw [cancelTimeout, wp_bind, wp_readTcb, wp_ite]
  split
  · rename_i hbit
    have hp : p ∈ Q.wakeup := (h.wakeupBit p).mpr hbit
    obtain ⟨head, links, hdeq, hring, -⟩ := h.wakeup.dequeue hp
    simp only [wp_bind, wp_gets, id, hdeq, ofLinks, wp_pure, setWakeupList, wp_modify, setWakeup,
      wp_modTcb]
    have hhead : (fun x => (Function.update s.tcb p { s.tcb p with queueState :=
        { (s.tcb p).queueState with wakeup := false } } x).sendHead) = fun x => (s.tcb x).sendHead := by
      funext x
      rcases eq_or_ne x p with rfl | hx
      · simp
      · simp [hx]
    refine ⟨h.ready, fun x n => ?_, hring, fun x => ?_, ?_, fun x => ?_⟩
    · rw [h.readyBit]
      rcases eq_or_ne x p with rfl | hx
      · simp
      · simp [hx]
    · rw [h.wakeup.cyc.nodup.mem_erase_iff, h.wakeupBit]
      rcases eq_or_ne x p with rfl | hx
      · simp
      · simp [hx]
    · exact hhead ▸ h.send
    · rw [h.sendBit]
      rcases eq_or_ne x p with rfl | hx
      · simp
      · simp [hx]
  · rename_i hbit
    have hp : p ∉ Q.wakeup := fun hp => hbit ((h.wakeupBit p).mp hp)
    rw [List.erase_of_not_mem hp]
    exact h

/-! ## Send queues -/

/-- A member `p` of the send queue of `q` is taken out of it. -/
theorem wp_dequeueSend_queues (h : s.Represents Q) (hp : p ∈ Q.send q) :
    wp E (dequeueSend p q) (fun _ t => t.Represents
      { Q with send := Function.update Q.send q ((Q.send q).erase p) }) s := by
  obtain ⟨head, links, hdeq, hrings⟩ := h.send.dequeue hp
  have hmem : ∀ x, (∃ o, x ∈ Function.update Q.send q ((Q.send q).erase p) o) ↔
      (∃ o, x ∈ Q.send o) ∧ x ≠ p := by
    intro x
    constructor
    · rintro ⟨o, ho⟩
      rcases eq_or_ne o q with rfl | hne
      · rw [Function.update_self, (h.send.ring _).cyc.nodup.mem_erase_iff] at ho
        exact ⟨⟨o, ho.2⟩, ho.1⟩
      · rw [Function.update_of_ne hne] at ho
        refine ⟨⟨o, ho⟩, ?_⟩
        rintro rfl
        exact hne (h.send.disjoint ho hp)
    · rintro ⟨⟨o, ho⟩, hx⟩
      refine ⟨o, ?_⟩
      rcases eq_or_ne o q with rfl | hne
      · rw [Function.update_self]
        exact (List.mem_erase_of_ne hx).mpr ho
      · rwa [Function.update_of_ne hne]
  rw [dequeueSend, wp_bind, wp_gets]
  simp only [id, hdeq, ofLinks, wp_bind, wp_pure, setSendQueue, setSendLinks, wp_modify, setSend,
    wp_modTcb]
  refine ⟨h.ready, fun x n => ?_, h.wakeup, fun x => ?_, ?_, fun x => ?_⟩
  · rw [h.readyBit]
    rcases eq_or_ne x p with rfl | hx <;> rcases eq_or_ne x q with rfl | hx' <;> simp [*]
  · rw [h.wakeupBit]
    rcases eq_or_ne x p with rfl | hx <;> rcases eq_or_ne x q with rfl | hx' <;> simp [*]
  · convert hrings using 1
    funext x
    rcases eq_or_ne x p with rfl | hx <;> rcases eq_or_ne x q with rfl | hx' <;> simp [*]
  · rw [hmem, h.sendBit]
    rcases eq_or_ne x p with rfl | hx <;> rcases eq_or_ne x q with rfl | hx' <;> simp [*]

end L4Thread
