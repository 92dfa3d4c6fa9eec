import L4Thread.Theory.Matching
import L4Thread.Theory.Queues

/-!
# Deleted threads and the queues

`delete_tcb` takes a thread out of the ready queue and leaves the wakeup queue and the send queue to
`unwind`, which looks at the thread state only: it cancels a timeout of a thread that is polling or
waiting, and it takes a polling thread out of the send queue of its partner. An inactive thread is
taken out of nothing. A thread that is in a queue for another reason stays there.
-/

namespace L4Thread

open TrapM Kernel Ring

variable {s t : KState} {p q : TcbPtr} {Q : Queues} {α : Type} {tag : MsgTag}
  {reason : UnwindReason}

/-- No queue leads to `p`. -/
structure KState.Unlinked (s : KState) (p : TcbPtr) : Prop where
  ready : ∀ n, Avoids s.readyList (s.prioQueue n) p
  wakeup : Avoids s.waitList s.wakeupList p
  send : ∀ o, Avoids s.sendList (s.tcb o).sendHead p

/-- A thread in this state is in the middle of a transfer or not in an IPC, and has not tunnelled a
page fault to itself. -/
structure Engaged (p : TcbPtr) (st : ThreadState) (partner : ThreadId) : Prop where
  polling : st.isPolling = false
  waiting : st.isWaiting = false
  self : st = .waitingTunneledPf → getTcb partner ≠ p

/-- The queues are circular lists, a polling thread is in the send queue of its partner, and no
nested IPC was entered from a polling or waiting thread. -/
structure KState.Orderly (s : KState) (p : TcbPtr) (Q : Queues) : Prop where
  represents : s.Represents Q
  polling : (s.tcb p).state.isPolling → p ∈ Q.send (getTcb (s.tcb p).partner)
  saved : Engaged p (s.tcb p).savedState (s.tcb p).savedPartner

/-- The queues `p` is in, and the queue it owns, are those that `delete_tcb` takes care of. -/
structure KState.Detaches (s : KState) (p : TcbPtr) (Q : Queues) : Prop where
  ready : (s.tcb p).isActivated = false → ∀ n, p ∉ Q.ready n
  wakeup : p ∈ Q.wakeup →
    (s.tcb p).isActivated ∧ ((s.tcb p).state.isPolling ∨ (s.tcb p).state.isWaiting)
  send : ∀ o, p ∈ Q.send o → (s.tcb p).isActivated ∧ ((s.tcb p).state.isPolling ∨ o = p)
  senders : (s.tcb p).isActivated = false → Q.send p = []

/-! ## The places of a thread -/

/-- The queues `p` is in: ready queues, the wakeup queue, and the send queues of some threads. -/
def Placed (p : TcbPtr) (R : Int → Prop) (W : Prop) (F : TcbPtr → Prop) (s : KState) : Prop :=
  ∃ Q, s.Represents Q ∧ (∀ n, p ∈ Q.ready n ↔ R n) ∧ (p ∈ Q.wakeup ↔ W) ∧ ∀ o, p ∈ Q.send o ↔ F o

section Placed

variable {R : Int → Prop} {W : Prop} {F : TcbPtr → Prop}

theorem Placed.unlinked_iff (h : Placed p R W F t) :
    t.Unlinked p ↔ (∀ n, ¬R n) ∧ ¬W ∧ ∀ o, ¬F o := by
  obtain ⟨Q, hQ, hR, hW, hF⟩ := h
  have hready := fun n => (hQ.ready.ring n).avoids_iff (x := p)
  have hwakeup := hQ.wakeup.avoids_iff (x := p)
  have hsend := fun o => (hQ.send.ring o).avoids_iff (x := p)
  constructor
  · intro hu
    refine ⟨fun n hn => ?_, fun hw => ?_, fun o ho => ?_⟩
    · exact (hready n).mp (hu.ready n) ((hR n).mpr hn)
    · exact hwakeup.mp hu.wakeup (hW.mpr hw)
    · exact (hsend o).mp (hu.send o) ((hF o).mpr ho)
  · rintro ⟨hr, hw, hf⟩
    refine ⟨fun n => (hready n).mpr ?_, hwakeup.mpr ?_, fun o => (hsend o).mpr ?_⟩
    · rw [hR]
      exact hr n
    · rw [hW]
      exact hw
    · rw [hF]
      exact hf o

theorem preservesPlaced_of_keeps {x : Kernel α} (hx : KeepsQueues x) :
    Preserves (Placed p R W F) x := by
  rintro s a t ⟨Q, hQ, hrest⟩ hs
  exact ⟨Q, hQ.congr (hx s a t hs), hrest⟩

theorem Placed.setTcb {c : Tcb} (h : Placed p R W F s) (hc : c.queued = (s.tcb q).queued) :
    Placed p R W F { s with tcb := Function.update s.tcb q c } := by
  obtain ⟨Q, hQ, hrest⟩ := h
  refine ⟨Q, hQ.congr ?_, hrest⟩
  simp only [KState.queues, QueuePart.mk.injEq, and_true]
  funext x
  rcases eq_or_ne x q with rfl | hx
  · rw [Function.update_self, hc]
  · rw [Function.update_of_ne hx]

/-- Other threads become ready. -/
theorem preservesPlaced_enqueueReady {b : Bool} (hq : q ≠ p) :
    Preserves (Placed p R W F) (enqueueReady q b) := by
  rintro s a t ⟨Q, hQ, hR, hW, hF⟩ hs
  obtain ⟨ready, ht, hmem⟩ := wp_iff_ok.mp (wp_enqueueReady_queues hQ) a t hs
  refine ⟨_, ht, fun n => ?_, hW, hF⟩
  rw [hmem, hR]
  constructor
  · rintro (h | h)
    · exact h
    · exact absurd h.1.symm hq
  · exact .inl

theorem wp_dequeueReady_placed (h : Placed p R W F s) :
    wp (fun _ => True) (dequeueReady p) (fun _ t => Placed p (fun _ => False) W F t) s := by
  obtain ⟨Q, hQ, hR, hW, hF⟩ := h
  refine wp_mono (wp_dequeueReady_queues hQ) fun _ t ht => ?_
  obtain ⟨ready, ht, hmem⟩ := ht
  refine ⟨_, ht, fun n => ?_, hW, hF⟩
  rw [hmem]
  simp

theorem wp_cancelTimeout_placed {E : Trap → Prop} (h : Placed p R W F s) :
    wp E (cancelTimeout p) (fun _ t => Placed p R False F t) s := by
  obtain ⟨Q, hQ, hR, hW, hF⟩ := h
  refine wp_mono (wp_cancelTimeout_queues hQ) fun _ t ht => ⟨_, ht, hR, ?_, hF⟩
  rw [hQ.wakeup.cyc.nodup.mem_erase_iff]
  simp

theorem wp_dequeueSend_placed {E : Trap → Prop} (h : Placed p R W F s) (hq : F q) :
    wp E (dequeueSend p q) (fun _ t => Placed p R W (fun _ => False) t) s := by
  obtain ⟨Q, hQ, hR, hW, hF⟩ := h
  have hp : p ∈ Q.send q := (hF q).mpr hq
  refine wp_mono (wp_dequeueSend_queues hQ hp) fun _ t ht => ⟨_, ht, hR, hW, fun o => ?_⟩
  rcases eq_or_ne o q with rfl | hne
  · simp [(hQ.send.ring o).cyc.nodup.mem_erase_iff]
  · have hno : p ∉ Q.send o := fun ho => hne (hQ.send.disjoint ho hp)
    simpa [hne] using hno

/-- The send queue of `p` is emptied. -/
theorem wp_drainSendQueue_placed (n : Nat) : ∀ {F : TcbPtr → Prop} {s : KState},
    Placed p R W F s → wp (fun _ => True) (drainSendQueue p n)
      (fun _ t => Placed p R W (fun o => F o ∧ o ≠ p) t) s := by
  induction n with
  | zero => exact fun _ => trivial
  | succ n ih =>
    rintro F s ⟨Q, hQ, hR, hW, hF⟩
    rw [drainSendQueue, wp_bind, wp_readTcb]
    have hhead : (s.tcb p).sendHead = (Q.send p).head? := (hQ.send.ring p).head_eq
    cases hq : (s.tcb p).sendHead with
    | none =>
      have hnil : Q.send p = [] := by
        rw [hq] at hhead
        exact List.head?_eq_none_iff.mp hhead.symm
      refine ⟨Q, hQ, hR, hW, fun o => ?_⟩
      rw [hF]
      refine ⟨fun ho => ⟨ho, ?_⟩, And.left⟩
      rintro rfl
      have hmem := (hF o).mpr ho
      rw [hnil] at hmem
      cases hmem
    | some q =>
      have hmem : q ∈ Q.send p := by
        rw [hq] at hhead
        exact List.mem_of_mem_head? hhead.symm
      rw [wp_bind]
      refine wp_mono (wp_dequeueSend_queues hQ hmem) fun _ t ht => ?_
      -- Either another thread is taken out, or `p` itself.
      have hplaced : Placed p R W (fun o => F o ∧ (o = p → q ≠ p)) t := by
        refine ⟨_, ht, hR, hW, fun o => ?_⟩
        rcases eq_or_ne o p with rfl | hne
        · simp only [Function.update_self, (hQ.send.ring o).cyc.nodup.mem_erase_iff, hF,
            forall_const]
          tauto
        · simp [hne, hF]
      refine wp_mono (ih hplaced) fun _ r hr => ?_
      obtain ⟨Q', hQ', hR', hW', hF'⟩ := hr
      refine ⟨Q', hQ', hR', hW', fun o => ?_⟩
      rw [hF']
      tauto

end Placed

/-! ## Unwinding -/

section Unwind

variable {R : Int → Prop} {W : Prop} {F : TcbPtr → Prop}

theorem keepsQueues_restoreState : KeepsQueues (restoreState p) := by
  unfold restoreState restoreRegisters setErrorCode
  refine .bind (.bind (.gets _) fun _ => keepsQueues_modUtcb) fun _ => ?_
  refine .bind (keepsQueues_modTcb fun _ => rfl) fun _ => .bind (.gets _) fun _ => ?_
  exact .bind keepsQueues_modUtcb fun _ => keepsQueues_modTcb fun _ => rfl

theorem keepsQueues_setIpcError {err : Word} : KeepsQueues (setIpcError p tag err) := by
  unfold setIpcError setTag setMr setErrorCode
  exact .bind keepsQueues_modUtcb fun _ => keepsQueues_modUtcb

theorem preservesPlaced_abortPartner {err : Word} (hq : q ≠ p) :
    Preserves (Placed p R W F) (abortPartner q tag err) := by
  unfold abortPartner setErrorCode setTag setMr setState notify pushFrame
  refine .bind (preservesPlaced_of_keeps keepsQueues_modUtcb) fun _ => ?_
  refine .bind (preservesPlaced_of_keeps keepsQueues_modUtcb) fun _ => ?_
  refine .bind (preservesPlaced_of_keeps (keepsQueues_modTcb fun _ => rfl)) fun _ => ?_
  refine .bind (preservesPlaced_of_keeps (keepsQueues_modTcb fun _ => rfl)) fun _ => ?_
  exact preservesPlaced_enqueueReady hq

theorem Tcb.saved_of_ipc {c d : Tcb} (h : c.ipc = d.ipc) :
    c.savedState = d.savedState ∧ c.savedPartner = d.savedPartner := by
  have hstate : c.ipc.savedState = d.ipc.savedState := congrArg Tcb.savedState h
  have hpartner : c.ipc.savedPartner = d.ipc.savedPartner := congrArg Tcb.savedPartner h
  exact ⟨hstate, hpartner⟩

theorem engaged_aborted {tid : ThreadId} : Engaged p .aborted tid :=
  ⟨rfl, rfl, nofun⟩

/-- The rounds at a thread that has no timeout and no place in a send queue to give up. -/
theorem wp_unwindLoop_placed (n : Nat) : ∀ {s : KState} {tag : MsgTag}, Placed p R W F s →
    Engaged p (s.tcb p).state (s.tcb p).partner →
    Engaged p (s.tcb p).savedState (s.tcb p).savedPartner →
    wp (fun _ => True) (unwindLoop p reason n tag) (fun _ t => Placed p R W F t) s := by
  induction n with
  | zero => exact fun _ _ _ => trivial
  | succ n ih =>
    intro s tag hplaced hinner houter
    have hredo : ∀ {r tag'}, Placed p R W F r →
        (r.tcb p).savedState = (s.tcb p).savedState ∧
          (r.tcb p).savedPartner = (s.tcb p).savedPartner →
        wp (fun _ => True) (do restoreState p; unwindLoop p reason n tag')
          (fun _ t => Placed p R W F t) r := by
      intro r tag' hr hsaved
      rw [wp_bind, wp_iff_ok]
      intro _ r' hr'
      have hrest := wp_iff_ok.mp wp_restoreState_restored _ _ hr'
      refine ih (preservesPlaced_of_keeps keepsQueues_restoreState r _ r' hr hr') ?_ ?_
      · rw [hrest.state, hrest.partner, hsaved.1, hsaved.2]
        exact houter
      · rw [hrest.savedState]
        exact engaged_aborted
    simp only [unwindLoop, getState, getPartnerTcb, wp_bind, wp_readTcb, wp_pure]
    rw [wp_iff_ok]
    intro _ r hset
    have hrp : r.tcb p = { s.tcb p with state := .running } := by
      cases hset
      simp
    have hkeep : KeepsQueues (setState p .running) := keepsQueues_modTcb fun _ => rfl
    have hr : Placed p R W F r := preservesPlaced_of_keeps hkeep s _ r hplaced hset
    have hother : ∀ {x : TcbPtr} {st : ThreadState}, (r.tcb x).state = st → st ≠ .running →
        x ≠ p := by
      rintro x st hx hne rfl
      rw [hrp] at hx
      exact hne hx.symm
    have herr : ∀ {u : KState} {err : Word} {tag' : MsgTag}, Placed p R W F u →
        wp (fun _ => True) (setIpcError p tag' err) (fun _ t => Placed p R W F t) u := by
      intro u err tag' hu
      exact (preservesPlaced_of_keeps keepsQueues_setIpcError).wp hu fun _ _ h => h
    -- The end of the rounds that may be followed by another one.
    have hlast : ∀ {u tag' tag'' err}, Placed p R W F u →
        (u.tcb p).savedState = (s.tcb p).savedState ∧
          (u.tcb p).savedPartner = (s.tcb p).savedPartner →
        wp (fun _ => True) (if (!(s.tcb p).savedPartner.isNilthread) = true then do
          restoreState p
          unwindLoop p reason n tag'
        else setIpcError p tag'' err) (fun _ t => Placed p R W F t) u := by
      intro u _ _ _ hu hsaved
      split
      · exact hredo hu hsaved
      · exact herr hu
    have hsaved : (r.tcb p).savedState = (s.tcb p).savedState ∧
        (r.tcb p).savedPartner = (s.tcb p).savedPartner := by simp [hrp]
    have habort : ∀ {x : TcbPtr} {tag' : MsgTag} {err : Word}, x ≠ p →
        wp (fun _ => True) (abortPartner x tag' err) (fun _ u => Placed p R W F u ∧
          (u.tcb p).savedState = (s.tcb p).savedState ∧
            (u.tcb p).savedPartner = (s.tcb p).savedPartner) r := by
      intro x tag' err hx
      rw [wp_iff_ok]
      intro _ u hu
      refine ⟨preservesPlaced_abortPartner hx r _ u hr hu, ?_⟩
      have htcb := (untouched_abortPartner (A := (· = x)) rfl r _ u .refl hu).tcb p hx.symm
      have hur := Tcb.saved_of_ipc htcb
      exact ⟨hur.1.trans hsaved.1, hur.2.trans hsaved.2⟩
    rw [hrp]
    cases hst : (s.tcb p).state with
    | lockedRunningIpcDone =>
      simp +decide only [ite_true, ite_false]
      exact hredo hr hsaved
    | lockedRunning =>
      simp +decide only [ite_true, ite_false, wp_bind]
      refine wp_calculateErrorcodes fun _ _ _ _ => ?_
      rw [wp_readTcb, wp_readTcb, wp_ite]
      split
      · rename_i hG
        rw [wp_bind]
        exact wp_mono (habort (hother hG.1 nofun)) fun _ _ h => hlast h.1 h.2
      · exact hlast hr hsaved
    | lockedWaiting =>
      simp +decide only [ite_true, ite_false, wp_bind]
      refine wp_calculateErrorcodes fun _ _ _ _ => ?_
      rw [wp_readTcb, wp_pure, wp_ite]
      split
      · rename_i hG
        rw [wp_bind]
        exact wp_mono (habort (hother hG nofun)) fun _ _ h => hlast h.1 h.2
      · exact hlast hr hsaved
    | lockedRunningNested =>
      simp +decide only [ite_true, ite_false, wp_bind]
      refine wp_calculateErrorcodes fun _ _ _ _ => ?_
      rw [wp_readTcb, wp_pure, wp_ite]
      split
      · rename_i hG
        rw [wp_bind]
        exact wp_mono (habort (hother hG nofun)) fun _ _ h => herr h.1
      · exact herr hr
    | waitingTunneledPf =>
      simp +decide only [ite_true, ite_false, wp_bind]
      refine wp_calculateErrorcodes fun _ _ _ _ => ?_
      exact wp_mono (habort (hinner.self hst)) fun _ _ h => herr h.1
    | waitingForever | waitingTimeout =>
      have hwait := hinner.waiting
      rw [hst] at hwait
      cases hwait
    | polling =>
      have hpoll := hinner.polling
      rw [hst] at hpoll
      cases hpoll
    | zero | running | halted | aborted =>
      simp +decide only [ite_false]
      exact hr

/-- The round at a thread that is polling or waiting. -/
theorem wp_unwindLoop_blocked {n : Nat} (hplaced : Placed p R W F s)
    (hblocked : (s.tcb p).state.isPolling ∨ (s.tcb p).state.isWaiting)
    (hpoll : (s.tcb p).state.isPolling → F (getTcb (s.tcb p).partner))
    (houter : Engaged p (s.tcb p).savedState (s.tcb p).savedPartner) :
    wp (fun _ => True) (unwindLoop p reason (n + 1) tag)
      (fun _ t => Placed p R False (fun o => F o ∧ ¬(s.tcb p).state.isPolling) t) s := by
  simp only [unwindLoop, getState, getPartnerTcb, wp_bind, wp_readTcb, wp_pure]
  rw [wp_iff_ok]
  intro _ r hset
  have hrp : r.tcb p = { s.tcb p with state := .running } := by
    cases hset
    simp
  have hkeep : KeepsQueues (setState p .running) := keepsQueues_modTcb fun _ => rfl
  have hr : Placed p R W F r := preservesPlaced_of_keeps hkeep s _ r hplaced hset
  rw [if_pos hblocked, wp_bind, wp_iff_ok]
  intro _ u hcancel
  have hu : Placed p R False F u := wp_iff_ok.mp (wp_cancelTimeout_placed hr) _ u hcancel
  have hsaved : (u.tcb p).savedState = (s.tcb p).savedState ∧
      (u.tcb p).savedPartner = (s.tcb p).savedPartner := by
    have hipc := keepsIpc_of_core keepsCore_cancelTimeout r _ u hcancel
    have hur := Tcb.saved_of_ipc (congrFun (congrArg Prod.fst hipc) p)
    rw [hrp] at hur
    exact hur
  have hrest : ∀ {v : KState} {tag' : MsgTag} {err : Word} {F' : TcbPtr → Prop},
      Placed p R False F' v → (v.tcb p).savedState = (s.tcb p).savedState ∧
        (v.tcb p).savedPartner = (s.tcb p).savedPartner →
      wp (fun _ => True) (if (!(r.tcb p).savedPartner.isNilthread) = true then do
          restoreState p
          unwindLoop p reason n tag'
        else do
          setTag p tag'.setError
          setErrorCode p err) (fun _ t => Placed p R False F' t) v := by
    intro v tag' err F' hv hsaved
    split
    · rw [wp_bind, wp_iff_ok]
      intro _ v' hv'
      have hrestored := wp_iff_ok.mp wp_restoreState_restored _ _ hv'
      refine wp_unwindLoop_placed n (preservesPlaced_of_keeps keepsQueues_restoreState v _ v' hv hv')
        ?_ ?_
      · rw [hrestored.state, hrestored.partner, hsaved.1, hsaved.2]
        exact houter
      · rw [hrestored.savedState]
        exact engaged_aborted
    · unfold setTag setMr setErrorCode
      have hkeep : ∀ {f g : Utcb → Utcb}, KeepsQueues (do modUtcb p f; modUtcb p g) :=
        .bind keepsQueues_modUtcb fun _ => keepsQueues_modUtcb
      exact (preservesPlaced_of_keeps hkeep).wp hv fun _ _ h => h
  cases hp : (s.tcb p).state.isPolling with
  | true =>
    simp only [ite_true, wp_bind]
    rw [wp_iff_ok]
    intro _ v hdeq
    rw [hrp] at hdeq
    have hv := wp_iff_ok.mp (wp_dequeueSend_placed hu (hpoll hp)) _ v hdeq
    have hipc := keepsIpc_dequeueSend u _ v hdeq
    have hvu := Tcb.saved_of_ipc (congrFun (congrArg Prod.fst hipc) p)
    simpa using hrest hv ⟨hvu.1.trans hsaved.1, hvu.2.trans hsaved.2⟩
  | false =>
    simp only [Bool.false_eq_true, if_false, not_false_eq_true, and_true]
    exact hrest hu hsaved

theorem wp_unwind_placed (hplaced : Placed p R W F s)
    (hstate : (s.tcb p).state.isSending ∨ (s.tcb p).state.isReceiving)
    (hpoll : (s.tcb p).state.isPolling → F (getTcb (s.tcb p).partner))
    (houter : Engaged p (s.tcb p).savedState (s.tcb p).savedPartner) :
    wp (fun _ => True) (unwind p reason) (fun _ t => Placed p R
      (W ∧ ¬((s.tcb p).state.isPolling ∨ (s.tcb p).state.isWaiting))
      (fun o => F o ∧ ¬(s.tcb p).state.isPolling) t) s := by
  rw [unwind, wp_bind]
  refine wp_getTag ?_
  by_cases hblocked : (s.tcb p).state.isPolling ∨ (s.tcb p).state.isWaiting
  · have hW : (W ∧ ¬((s.tcb p).state.isPolling ∨ (s.tcb p).state.isWaiting)) = False :=
      eq_false fun hw => hw.2 hblocked
    rw [hW]
    exact wp_unwindLoop_blocked hplaced hblocked hpoll houter
  · obtain ⟨hnpoll, hnwait⟩ := not_or.mp hblocked
    have hinner : Engaged p (s.tcb p).state (s.tcb p).partner := by
      refine ⟨by simpa using hnpoll, by simpa using hnwait, fun hpf => ?_⟩
      rw [hpf] at hstate
      rcases hstate with h | h <;> cases h
    simpa [hnpoll, hnwait] using wp_unwindLoop_placed 3 hplaced hinner houter

end Unwind

/-! ## Deletion -/

/-- Nobody waits to send to a thread whose send queue was emptied. -/
theorem wp_drainSendQueue_empty (n : Nat) : ∀ {s : KState},
    wp (fun _ => True) (drainSendQueue p n) (fun _ t => (t.tcb p).sendHead = none) s := by
  induction n with
  | zero => exact trivial
  | succ n ih =>
    intro s
    rw [drainSendQueue, wp_bind, wp_readTcb]
    cases hq : (s.tcb p).sendHead with
    | none => exact hq
    | some q =>
      rw [wp_bind]
      exact wp_iff_ok.mpr fun _ _ _ => ih

/-- The end of the deletion of an active thread. -/
theorem wp_drained {R : Int → Prop} {W P : Prop} {F : TcbPtr → Prop}
    (h : Placed p R W (fun o => F o ∧ ¬P) s) :
    wp (fun _ => True)
      (do
        drainSendQueue p numTcbs
        modTcb p fun c => { c with utcb := none }
        modTcb p fun c =>
          { c with
            myselfGlobal := .nilthread, myselfLocal := .nilthread
            space := none, state := .aborted })
      (fun _ t => Placed p R W (fun o => F o ∧ ¬(P ∨ o = p)) t ∧ (t.tcb p).sendHead = none) s := by
  rw [wp_bind, wp_iff_ok]
  intro _ v hv
  have hdrained := wp_iff_ok.mp (wp_drainSendQueue_placed numTcbs h) _ v hv
  have hempty := wp_iff_ok.mp (wp_drainSendQueue_empty numTcbs) _ v hv
  simp only [wp_bind, wp_modTcb, Function.update_self, Function.update_idem]
  refine ⟨?_, hempty⟩
  have hend := hdrained.setTcb (q := p) (c := { v.tcb p with
    myselfGlobal := .nilthread, myselfLocal := .nilthread, utcb := none, state := .aborted
    space := none }) rfl
  simpa only [and_assoc, not_or] using hend

/-- The queues a deleted thread is left in. -/
theorem wp_deleteTcb_placed (h : s.Orderly p Q) :
    wp (fun _ => True) (deleteTcb p) (fun _ t =>
      Placed p (fun n => p ∈ Q.ready n ∧ ¬(s.tcb p).isActivated)
        (p ∈ Q.wakeup ∧ ¬((s.tcb p).isActivated ∧
          ((s.tcb p).state.isPolling ∨ (s.tcb p).state.isWaiting)))
        (fun o => p ∈ Q.send o ∧ ¬((s.tcb p).isActivated ∧
          ((s.tcb p).state.isPolling ∨ o = p))) t ∧
      ((t.tcb p).sendHead = none ↔ (s.tcb p).isActivated ∨ Q.send p = [])) s := by
  have hstart : Placed p (fun n => p ∈ Q.ready n) (p ∈ Q.wakeup) (fun o => p ∈ Q.send o) s :=
    ⟨Q, h.represents, fun _ => .rfl, .rfl, fun _ => .rfl⟩
  rw [deleteTcb, wp_bind, wp_readTcb]
  cases hact : (s.tcb p).isActivated with
  | false =>
    simp only [Bool.false_eq_true, if_false, wp_modTcb, false_and, not_false_eq_true, and_true,
      false_or]
    refine ⟨hstart.setTcb rfl, ?_⟩
    rw [Function.update_self, (h.represents.send.ring p).head_eq, List.head?_eq_none_iff]
  | true =>
    simp only [if_true, wp_bind, true_and, not_true_eq_false, and_false, true_or, iff_true]
    rw [wp_iff_ok]
    intro _ r hr
    have hplaced := wp_iff_ok.mp (wp_dequeueReady_placed hstart) _ r hr
    have hipc := congrFun (congrArg Prod.fst (keepsIpc_of_core keepsCore_dequeueReady s _ r hr)) p
    have hsaved := Tcb.saved_of_ipc hipc
    have hstate : (r.tcb p).ipc.state = (s.tcb p).ipc.state := congrArg Tcb.state hipc
    have hpartner : (r.tcb p).ipc.partner = (s.tcb p).ipc.partner := congrArg Tcb.partner hipc
    change (r.tcb p).state = (s.tcb p).state at hstate
    change (r.tcb p).partner = (s.tcb p).partner at hpartner
    simp only [getState, wp_bind, wp_readTcb, wp_pure]
    split
    · rename_i hstate'
      rw [wp_bind]
      rw [← hstate]
      refine wp_mono (wp_unwind_placed hplaced hstate' ?_ ?_) fun _ u hu => wp_drained hu
      · rw [hstate, hpartner]
        exact h.polling
      · rw [hsaved.1, hsaved.2]
        exact h.saved
    · rename_i hstate'
      have hnone : ¬((s.tcb p).state.isPolling ∨ (s.tcb p).state.isWaiting) := by
        rw [hstate] at hstate'
        revert hstate'
        cases (s.tcb p).state <;> decide
      have hsame : Placed p (fun _ => False)
          (p ∈ Q.wakeup ∧ ¬((s.tcb p).state.isPolling ∨ (s.tcb p).state.isWaiting))
          (fun o => p ∈ Q.send o ∧ ¬(s.tcb p).state.isPolling) r := by
        simpa [not_or.mp hnone] using hplaced
      exact wp_drained hsame

/-- The state with an initialised TCB. -/
def KState.initialised (t : KState) (p : TcbPtr) (dest : ThreadId) : KState :=
  { t with tcb := Function.update t.tcb p ((t.tcb p).init dest) }

section Init

variable {dest : ThreadId} {Q' : Queues}

theorem KState.initialised_self : (t.initialised p dest).tcb p = (t.tcb p).init dest :=
  Function.update_self ..

theorem KState.initialised_of_ne (hq : q ≠ p) : (t.initialised p dest).tcb q = t.tcb q :=
  Function.update_of_ne hq ..

theorem KState.Represents.initialised (h : t.Represents Q) (hu : t.Unlinked p)
    (hhead : (t.tcb p).sendHead = none) : (t.initialised p dest).Represents Q := by
  have hready : ∀ n, p ∉ Q.ready n := fun n => (h.ready.ring n).avoids_iff.mp (hu.ready n)
  have hwakeup : p ∉ Q.wakeup := h.wakeup.avoids_iff.mp hu.wakeup
  have hsend : ∀ o, p ∉ Q.send o := fun o => (h.send.ring o).avoids_iff.mp (hu.send o)
  refine ⟨h.ready, fun x n => ?_, h.wakeup, fun x => ?_, ?_, fun x => ?_⟩
  · rcases eq_or_ne x p with rfl | hx
    · rw [initialised_self]
      exact iff_of_false (hready n) fun hbit => nomatch hbit.1
    · rw [initialised_of_ne hx]
      exact h.readyBit x n
  · rcases eq_or_ne x p with rfl | hx
    · rw [initialised_self]
      exact iff_of_false hwakeup nofun
    · rw [initialised_of_ne hx]
      exact h.wakeupBit x
  · have hheads : (fun x => ((t.initialised p dest).tcb x).sendHead) =
        fun x => (t.tcb x).sendHead := by
      funext x
      rcases eq_or_ne x p with rfl | hx
      · rw [initialised_self, hhead]
        rfl
      · rw [initialised_of_ne hx]
    rw [hheads]
    exact h.send
  · rcases eq_or_ne x p with rfl | hx
    · rw [initialised_self]
      exact iff_of_false (fun ho => ho.elim fun o => hsend o) nofun
    · rw [initialised_of_ne hx]
      exact h.sendBit x

/-- The senders of a TCB are lost when it is initialised. -/
theorem KState.Represents.not_initialised (h : t.Represents Q) (hu : t.Unlinked p)
    (hq : (t.tcb p).sendHead = some q) (h' : (t.initialised p dest).Represents Q') : False := by
  have hmem : q ∈ Q.send p := (h.send.ring p).member_iff.mp ⟨q, hq, .refl⟩
  have hne : q ≠ p := by
    rintro rfl
    exact (h.send.ring q).avoids_iff.mp (hu.send q) hmem
  have hbit : ((t.initialised p dest).tcb q).queueState.send = true := by
    rw [initialised_of_ne hne]
    exact (h.sendBit q).mp ⟨p, hmem⟩
  obtain ⟨o, ho⟩ := (h'.sendBit q).mpr hbit
  have hmember := (h'.send.ring o).member_iff.mpr ho
  rcases eq_or_ne o p with rfl | hop
  · rw [initialised_self] at hmember
    obtain ⟨_, hnone, -⟩ := hmember
    cases hnone
  · rw [initialised_of_ne hop] at hmember
    exact hop (h.send.disjoint ((h.send.ring o).member_iff.mp hmember) hmem)

theorem init_eq : init p dest t = .ok ((), t.initialised p dest) := by
  have hinit : wp (fun _ => False) (init p dest) (fun _ u => u = t.initialised p dest) t :=
    wp_init.mpr rfl
  obtain ⟨_, _, hrun, rfl⟩ := wp_iff_exists.mp hinit
  exact hrun

end Init

/-- A deleted thread is in no queue, and its TCB can be initialised again, just when it was in the
queues its state stands for. -/
theorem deleteTcb_detached_iff (h : s.Orderly p Q) (hrun : deleteTcb p s = .ok ((), t)) :
    (t.Unlinked p ∧ ∀ dest u, init p dest t = .ok ((), u) → ∃ Q', u.Represents Q') ↔
      s.Detaches p Q := by
  obtain ⟨hplaced, hsenders⟩ := wp_iff_ok.mp (wp_deleteTcb_placed h) _ t hrun
  obtain ⟨Q₁, hQ₁, -⟩ := id hplaced
  constructor
  · rintro ⟨hu, hrep⟩
    obtain ⟨hready, hwakeup, hsend⟩ := hplaced.unlinked_iff.mp hu
    refine ⟨fun hact n hn => ?_, fun hw => ?_, fun o ho => ?_, fun hact => ?_⟩
    · exact hready n ⟨hn, by simp [hact]⟩
    · exact not_not.mp fun hno => hwakeup ⟨hw, hno⟩
    · exact not_not.mp fun hno => hsend o ⟨ho, hno⟩
    · have hhead : (t.tcb p).sendHead = none := by
        cases hq : (t.tcb p).sendHead with
        | none => rfl
        | some q =>
          obtain ⟨Q', h'⟩ := hrep .nilthread _ init_eq
          exact (hQ₁.not_initialised hu hq h').elim
      simpa [hact] using hsenders.mp hhead
  · intro hd
    have hu : t.Unlinked p := by
      refine hplaced.unlinked_iff.mpr ⟨fun n hn => ?_, fun hw => ?_, fun o ho => ?_⟩
      · exact hd.ready (by simpa using hn.2) n hn.1
      · exact hw.2 (hd.wakeup hw.1)
      · exact ho.2 (hd.send o ho.1)
    refine ⟨hu, fun dest u hinit => ?_⟩
    rw [init_eq] at hinit
    cases hinit
    have hhead : (t.tcb p).sendHead = none := by
      refine hsenders.mpr ?_
      cases hact : (s.tcb p).isActivated with
      | true => exact .inl rfl
      | false => exact .inr (hd.senders hact)
    exact ⟨Q₁, hQ₁.initialised hu hhead⟩

/-! ## A sample sender -/

/-- A thread waits with a timeout to send to another one. -/
def KState.oneSender : KState :=
  { KState.meeting with
    tcb := fun p =>
      if p = sampleSender then
        { KState.meeting.tcb p with
          state := .polling, partner := sampleTid 1
          queueState := { QueueState.zero with wakeup := true, send := true } }
      else if p = sampleReceiver then { KState.meeting.tcb p with sendHead := some sampleSender }
      else KState.meeting.tcb p
    waitList := fun _ => ⟨some sampleSender, some sampleSender⟩
    sendList := fun _ => ⟨some sampleSender, some sampleSender⟩
    wakeupList := some sampleSender }

def Queues.oneSender : Queues where
  ready := fun _ => []
  wakeup := [sampleSender]
  send := fun p => if p = sampleReceiver then [sampleSender] else []

theorem oneSender_queued (p : TcbPtr) : (KState.oneSender.tcb p).queued =
    (0, { QueueState.zero with wakeup := p = sampleSender, send := p = sampleSender },
      if p = sampleReceiver then some sampleSender else none) := by
  by_cases hs : p = sampleSender
  · subst hs
    decide
  · by_cases hr : p = sampleReceiver
    · subst hr
      decide
    · simp only [KState.oneSender, KState.meeting, hs, hr, if_false]
      rfl

theorem oneSender_represents : KState.oneSender.Represents .oneSender := by
  have hbits := fun p => congrArg (fun c => (c.2.1.ready, c.2.1.wakeup, c.2.1.send, c.2.2))
    (oneSender_queued p)
  simp only [Tcb.queued, Prod.mk.injEq] at hbits
  have hone : IsRing (fun _ => (⟨some sampleSender, some sampleSender⟩ : Link TcbPtr))
      (some sampleSender) [sampleSender] := ⟨rfl, Cyc.singleton_iff.mpr rfl⟩
  refine ⟨⟨fun _ => ⟨rfl, .nil⟩, nofun⟩, fun p n => ?_, hone, fun p => ?_, ⟨fun p => ?_, ?_⟩,
    fun p => ?_⟩
  · rw [(hbits p).1]
    exact iff_of_false nofun nofun
  · rw [(hbits p).2.1]
    simp [Queues.oneSender]
  · have hhead := (hbits p).2.2.2
    simp only [Queues.oneSender]
    split at hhead
    · rw [hhead, if_pos ‹_›]
      exact hone
    · rw [hhead, if_neg ‹_›]
      exact ⟨rfl, .nil⟩
  · intro i j x hi hj
    simp only [Queues.oneSender] at hi hj
    split at hi
    · split at hj
      · simp_all
      · cases hj
    · cases hi
  · rw [(hbits p).2.2.1]
    simp only [Queues.oneSender]
    simp

theorem oneSender_orderly : KState.oneSender.Orderly sampleSender .oneSender :=
  ⟨oneSender_represents, fun _ => by decide, ⟨by decide, by decide, by decide⟩⟩

/-- A thread that waits to send is taken out of the wakeup queue and the send queue. -/
theorem exists_detached :
    ∃ t, deleteTcb sampleSender .oneSender = .ok ((), t) ∧
      t.Unlinked sampleSender ∧
      ∀ dest u, init sampleSender dest t = .ok ((), u) → ∃ Q', u.Represents Q' := by
  obtain ⟨⟨⟩, t, ht⟩ := exists_ok (s := .oneSender) (x := deleteTcb sampleSender)
    (by decide +kernel)
  refine ⟨t, ht, (deleteTcb_detached_iff oneSender_orderly ht).mpr ⟨?_, ?_, fun o ho => ?_, ?_⟩⟩
  · exact fun _ _ => nofun
  · exact fun _ => by decide
  · exact ⟨by decide, .inl (by decide)⟩
  · exact fun _ => by decide

/-- An inactive thread that was made ready by `SYS_SCHEDULE` stays in the ready queue. -/
theorem exists_not_detached :
    ∃ s t, Reachable (fun _ _ => True) s ∧ (s.tcb (getTcb (sampleTid 0))).isExisting ∧
      deleteTcb (getTcb (sampleTid 0)) s = .ok ((), t) ∧
      ¬t.Unlinked (getTcb (sampleTid 0)) := by
  obtain ⟨s, hs, hP⟩ := exists_reachable (fun _ _ => True)
    [.idle, .resume,
      .threadControl ⟨sampleTid 0, sigma0Tid, sigma0Tid, .nilthread, rootUtcbStart + 0x400⟩,
      .schedule (sampleTid 0) (BitVec.allOnes 64) 50 (BitVec.allOnes 64)]
    (fun s => (s.tcb (getTcb (sampleTid 0))).isExisting &&
      returnsWith (deleteTcb (getTcb (sampleTid 0)))
        (fun _ t => decide (t.prioQueue 50 = some (getTcb (sampleTid 0)))) s) (by decide +kernel)
  rw [Bool.and_eq_true] at hP
  obtain ⟨hex, hP⟩ := hP
  obtain ⟨_, t, hrun, hhead⟩ := exists_of_returnsWith hP
  have hhead := of_decide_eq_true hhead
  exact ⟨s, t, hs, hex, hrun, fun hu => (hu.ready 50).1 ⟨_, hhead, .refl⟩⟩

end L4Thread
