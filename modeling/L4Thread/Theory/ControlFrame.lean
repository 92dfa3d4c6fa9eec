import L4Thread.Theory.Deletion
import L4Thread.Theory.Effect

/-!
# The law of thread control

A successful call on a user thread leaves its destination as its arguments describe, and touches no
other TCB but those that have to do with an IPC it breaks off: the partner of a deleted or migrated
thread, also the one it is to go back to from a nested IPC, and the senders queued at a deleted
thread. The links of the queues are not part of a TCB here.
-/

namespace L4Thread

open TrapM Kernel Ring

variable {s t u : KState} {a : ThreadControlArgs} {p q dest : TcbPtr} {α : Type}
  {A M : TcbPtr → Prop} {c : Prop} {tag : MsgTag} {reason : UnwindReason} {tid tid' : ThreadId}

/-! ## The threads of an IPC -/

/-- A thread in this state is in an IPC. -/
def ThreadState.inIpc : ThreadState → Bool
  | .zero | .running | .halted | .aborted => false
  | _ => true

/-- `p` is in an IPC with `q`, or is in an IPC that is nested in one with `q`. -/
def KState.IpcPartner (s : KState) (p q : TcbPtr) : Prop :=
  (s.tcb p).state.inIpc ∧ q = getTcb (s.tcb p).partner ∨
    (s.tcb p).savedState.inIpc ∧ q = getTcb (s.tcb p).savedPartner

/-- `p` is in a send queue, by its state or the one it is to go back to. -/
def KState.Polls (s : KState) (p : TcbPtr) : Prop :=
  (s.tcb p).state.isPolling ∨ (s.tcb p).savedState.isPolling

/-- `q` is found in the send queue of `p`, also when `p` leaves the queue that it is in itself. -/
def KState.QueuedAt (s : KState) (p q : TcbPtr) : Prop :=
  Reaches s.sendList (s.tcb p).sendHead (s.Polls p) p q

/-- Where the queues are in order, these are the members of the send queue. -/
theorem KState.Orderly.queuedAt_iff {Q : Queues} (h : s.Orderly p Q) :
    s.QueuedAt p q ↔ q ∈ Q.send p := by
  refine h.represents.send.reaches_iff fun hpolls => ?_
  rcases hpolls with hpoll | hpoll
  · exact ⟨_, h.polling hpoll⟩
  · rw [h.saved.polling] at hpoll
    cases hpoll

/-- The TCB of a thread that has been taken out of a send queue. -/
def Tcb.unqueued (d : Tcb) : Tcb := { d with queueState := { d.queueState with send := false } }

theorem Tcb.unqueued_unqueued (d : Tcb) : d.unqueued.unqueued = d.unqueued := rfl

/-! ## Computations that touch some TCBs only -/

/-- The TCBs outside `A`. -/
def KState.tcbsOutside (A : TcbPtr → Prop) (s : KState) (q : { q // ¬A q }) : Tcb := s.tcb q

abbrev KeepsOutside (A : TcbPtr → Prop) (x : Kernel α) : Prop := Keeps (KState.tcbsOutside A) x

theorem KState.tcbsOutside_eq_iff :
    t.tcbsOutside A = s.tcbsOutside A ↔ ∀ q, ¬A q → t.tcb q = s.tcb q :=
  ⟨fun h q hq => congrFun h ⟨q, hq⟩, fun h => funext fun q => h q q.2⟩

section Outside

variable {x : Kernel α} {b : Bool}

theorem keepsOutside_of_tcb (h : Keeps (fun s : KState => s.tcb) x) : KeepsOutside A x :=
  h.comp fun f (q : { q // ¬A q }) => f q

@[grind ←] theorem keepsOutside_modTcb {f : Tcb → Tcb} (hp : A p) : KeepsOutside A (modTcb p f) := by
  refine .modify fun s => KState.tcbsOutside_eq_iff.mpr fun q hq => ?_
  have hne : q ≠ p := by
    rintro rfl
    exact hq hp
  exact Function.update_of_ne hne _ _

@[grind ←] theorem keepsOutside_modUtcb {f : Utcb → Utcb} : KeepsOutside A (modUtcb p f) :=
  .bind keeps_getUtcb fun _ => .modify fun _ => rfl

@[grind ←] theorem keepsOutside_modSpace {sp : SpacePtr} {f : Space → Space} :
    KeepsOutside A (modSpace sp f) :=
  .modify fun _ => rfl

@[grind ←] theorem keepsOutside_modKmem {f : Kmem → Kmem} : KeepsOutside A (modKmem f) :=
  .modify fun _ => rfl

@[grind ←] theorem keepsOutside_zeroUtcbPage {n : Nat} : KeepsOutside A (zeroUtcbPage n) :=
  .modify fun _ => rfl

@[grind ←] theorem keepsOutside_setMaxPrio {n : Int} : KeepsOutside A (setMaxPrio n) :=
  .modify fun _ => rfl

@[grind ←] theorem keepsOutside_setReadyQueue {prio : Int} {h : Option TcbPtr}
    {l : TcbPtr → Link TcbPtr} : KeepsOutside A (setReadyQueue prio h l) :=
  .modify fun _ => rfl

@[grind ←] theorem keepsOutside_setWakeupList {h : Option TcbPtr} {l : TcbPtr → Link TcbPtr} :
    KeepsOutside A (setWakeupList h l) :=
  .modify fun _ => rfl

@[grind ←] theorem keepsOutside_setSendLinks {l : TcbPtr → Link TcbPtr} :
    KeepsOutside A (setSendLinks l) :=
  .modify fun _ => rfl

@[grind ←] theorem keepsOutside_dequeueSend (hp : A p) (hq : A q) :
    KeepsOutside A (dequeueSend p q) := by
  unfold dequeueSend setSendQueue setSend
  refine .bind (.gets _) fun _ => .bind keeps_ofLinks fun _ => ?_
  refine .bind (.bind (keepsOutside_modTcb hq) fun _ => keepsOutside_setSendLinks) fun _ => ?_
  exact keepsOutside_modTcb hp

@[grind ←] theorem keepsOutside_enqueueReady (hp : A p) : KeepsOutside A (enqueueReady p b) := by
  unfold enqueueReady setReady
  grind

@[grind ←] theorem keepsOutside_dequeueReady (hp : A p) : KeepsOutside A (dequeueReady p) := by
  unfold dequeueReady setReady
  grind

@[grind ←] theorem keepsOutside_cancelTimeout (hp : A p) : KeepsOutside A (cancelTimeout p) := by
  unfold cancelTimeout setWakeup
  grind

@[grind ←] theorem keepsOutside_setIpcError {err : Word} :
    KeepsOutside A (setIpcError p tag err) := by
  unfold setIpcError setTag setMr setErrorCode
  grind

@[grind ←] theorem keepsOutside_restoreState (hp : A p) : KeepsOutside A (restoreState p) := by
  unfold restoreState restoreRegisters setErrorCode
  grind

@[grind ←] theorem keepsOutside_abortPartner {err : Word} (hp : A p) :
    KeepsOutside A (abortPartner p tag err) := by
  unfold abortPartner setErrorCode setTag setMr setState notify pushFrame
  grind

@[grind ←] theorem keepsOutside_allocateUtcb {sp : Option SpacePtr} {loc : Word} :
    KeepsOutside A (allocateUtcb sp loc) := by
  unfold allocateUtcb
  repeat' first | with_reducible refine Keeps.bind ?_ fun _ => ?_ | split
  all_goals grind

@[grind ←] theorem keepsOutside_removeTcb {sp : Option SpacePtr} :
    KeepsOutside A (removeTcb sp) := by
  unfold removeTcb
  grind

@[grind ←] theorem keepsOutside_unmapSpace {sp : SpacePtr} : KeepsOutside A (unmapSpace sp) := by
  unfold unmapSpace
  grind

@[grind ←] theorem keepsOutside_freeSpace {sp : SpacePtr} : KeepsOutside A (freeSpace sp) := by
  unfold freeSpace
  grind

end Outside

/-! ## Unwinding -/

/-- The links and the heads of the send queues. -/
def KState.sendQueues (s : KState) : (TcbPtr → Link TcbPtr) × (TcbPtr → Option TcbPtr) :=
  (s.sendList, fun p => (s.tcb p).sendHead)

theorem keepsSendQueues_of_core {x : Kernel α} (h : KeepsCore x) : Keeps KState.sendQueues x :=
  h.comp fun d : Core => (d.sendList, fun p => (d.tcb p).sendHead)

theorem keepsSendQueues_of_queues {x : Kernel α} (h : KeepsQueues x) : Keeps KState.sendQueues x :=
  h.comp fun d : QueuePart => (d.sendList, fun p => (d.tcb p).2.2)

/-- From `u` on only the TCBs in `A` were touched, and the send queue of `p` leads to members of `M`
only. -/
structure Contained (A M : TcbPtr → Prop) (c : Prop) (p : TcbPtr) (u t : KState) : Prop where
  others : ∀ q, ¬A q → t.tcb q = u.tcb q
  head : ∀ q, (t.tcb p).sendHead = some q → M q
  links : Confined M c p t.sendList

theorem preservesContained {x : Kernel α} (hx : KeepsOutside A x)
    (hq : Keeps KState.sendQueues x) : Preserves (Contained A M c p u) x := by
  intro s b t h hs
  obtain ⟨hlinks, hheads⟩ := Prod.mk.inj (hq s b t hs)
  refine ⟨fun q hA => ?_, ?_, ?_⟩
  · rw [KState.tcbsOutside_eq_iff.mp (hx s b t hs) q hA]
    exact h.others q hA
  · rw [congrFun hheads p]
    exact h.head
  · rw [hlinks]
    exact h.links

/-- A member of `M`, or `p` itself under the condition, is taken out of the send queue of `o`. -/
theorem wp_dequeueSend_confined {o : TcbPtr} (hhead : ∀ q, (s.tcb p).sendHead = some q → M q)
    (hlinks : Confined M c p s.sendList) (hM : M q ∨ c ∧ q = p) :
    wp (fun _ => True) (dequeueSend q o) (fun _ t =>
      (∀ q, (t.tcb p).sendHead = some q → M q) ∧ Confined M c p t.sendList) s := by
  rw [dequeueSend, wp_bind, wp_gets, wp_bind]
  cases hdeq : Ring.dequeue ((id s).tcb o).sendHead (id s).sendList q with
  | none => exact trivial
  | some r =>
    obtain ⟨hc, hh⟩ := hlinks.dequeue hM hdeq
    simp only [ofLinks, wp_pure, setSendQueue, setSendLinks, setSend, wp_bind, wp_modTcb, wp_modify]
    refine ⟨?_, hc⟩
    have hset : ∀ d : Tcb, (Function.update (Function.update s.tcb o { s.tcb o with sendHead := r.1 })
        q d p).sendHead = if p = q then d.sendHead else
          (Function.update s.tcb o { s.tcb o with sendHead := r.1 } p).sendHead := by
      intro d
      rw [Function.update_apply]
      split <;> rfl
    have hp : ∀ y, (Function.update s.tcb o { s.tcb o with sendHead := r.1 } p).sendHead = some y →
        M y := by
      intro y hy
      rcases eq_or_ne p o with rfl | hne
      · rw [Function.update_self] at hy
        exact hh hhead y hy
      · rw [Function.update_of_ne hne] at hy
        exact hhead y hy
    intro y hy
    rw [hset] at hy
    split at hy
    · rename_i hpq
      exact hp y (hpq ▸ hy)
    · exact hp y hy

theorem preservesContained_dequeueSend {o : TcbPtr} (hq : A q) (ho : A o) (hM : M q ∨ c ∧ q = p) :
    Preserves (Contained A M c p u) (dequeueSend q o) := by
  intro s b t h hs
  obtain ⟨hhead, hlinks⟩ := wp_iff_ok.mp (wp_dequeueSend_confined h.head h.links hM) b t hs
  refine ⟨fun x hx => ?_, hhead, hlinks⟩
  rw [KState.tcbsOutside_eq_iff.mp (keepsOutside_dequeueSend hq ho s b t hs) x hx]
  exact h.others x hx

/-- A thread in this state with this partner is bound to threads in `A` only. -/
structure BoundIn (A : TcbPtr → Prop) (c : Prop) (st : ThreadState) (partner : ThreadId) : Prop where
  partner : st.inIpc → A (getTcb partner)
  polls : st.isPolling → c

theorem boundIn_aborted : BoundIn A c .aborted tid :=
  ⟨nofun, nofun⟩

theorem keepsSendQueues_abortPartner {err : Word} :
    Keeps KState.sendQueues (abortPartner p tag err) := by
  unfold abortPartner setErrorCode setTag setMr setState notify pushFrame
  refine .bind (keepsSendQueues_of_queues keepsQueues_modUtcb) fun _ => ?_
  refine .bind (keepsSendQueues_of_queues keepsQueues_modUtcb) fun _ => ?_
  refine .bind (keepsSendQueues_of_queues (keepsQueues_modTcb fun _ => rfl)) fun _ => ?_
  refine .bind (keepsSendQueues_of_queues (keepsQueues_modTcb fun _ => rfl)) fun _ => ?_
  exact keepsSendQueues_of_core keepsCore_enqueueReady

/-- The state and partner a thread is to go back to. -/
def KState.saved (p : TcbPtr) (s : KState) : ThreadState × ThreadId :=
  ((s.tcb p).savedState, (s.tcb p).savedPartner)

theorem keepsSaved_of_ipc {x : Kernel α} (h : KeepsIpc x) : Keeps (KState.saved p) x :=
  h.comp fun d : (TcbPtr → Tcb) × (UtcbPtr → Utcb) =>
    ((d.1 p).savedState, (d.1 p).savedPartner)

theorem keepsSaved_modTcb {f : Tcb → Tcb}
    (h : ∀ d, ((f d).savedState, (f d).savedPartner) = (d.savedState, d.savedPartner)) :
    Keeps (KState.saved p) (modTcb q f) := by
  refine .modify fun s => ?_
  rcases eq_or_ne p q with rfl | hne
  · simpa [KState.saved] using h _
  · simp [KState.saved, hne]

theorem keepsSaved_modUtcb {f : Utcb → Utcb} : Keeps (KState.saved p) (modUtcb q f) :=
  .bind keeps_getUtcb fun _ => .modify fun _ => rfl

theorem keepsSaved_abortWith {err : Word} : Keeps (KState.saved p) (abortPartner q tag err) := by
  unfold abortPartner setErrorCode setTag setMr setState notify pushFrame
  refine .bind keepsSaved_modUtcb fun _ => .bind keepsSaved_modUtcb fun _ => ?_
  refine .bind (keepsSaved_modTcb fun _ => rfl) fun _ => .bind (keepsSaved_modTcb fun _ => rfl)
    fun _ => ?_
  exact keepsSaved_of_ipc (keepsIpc_of_core keepsCore_enqueueReady)

/-- The rounds touch the thread and those it is bound to. -/
theorem contained_unwindLoop (hp : A p) (n : Nat) : ∀ {s : KState} {tag : MsgTag},
    Contained A M c p u s → BoundIn A c (s.tcb p).state (s.tcb p).partner →
    BoundIn A c (s.tcb p).savedState (s.tcb p).savedPartner →
    wp (fun _ => True) (unwindLoop p reason n tag) (fun _ t => Contained A M c p u t) s := by
  induction n with
  | zero => exact fun _ _ _ => trivial
  | succ n ih =>
    intro s tag hs hinner houter
    have hkept : ∀ {x : Kernel Unit} {r : KState}, KeepsOutside A x → Keeps KState.sendQueues x →
        Contained A M c p u r → wp (fun _ => True) x (fun _ t => Contained A M c p u t) r :=
      fun hx hq hr => (preservesContained hx hq).wp hr fun _ _ h => h
    have herr : ∀ {r : KState} {err : Word} {tag' : MsgTag}, Contained A M c p u r →
        wp (fun _ => True) (setIpcError p tag' err) (fun _ t => Contained A M c p u t) r :=
      fun hr => hkept keepsOutside_setIpcError (keepsSendQueues_of_queues keepsQueues_setIpcError) hr
    have hredo : ∀ {r tag'}, Contained A M c p u r ∧ r.saved p = s.saved p →
        wp (fun _ => True) (do restoreState p; unwindLoop p reason n tag')
          (fun _ t => Contained A M c p u t) r := by
      rintro r tag' ⟨hr, hsaved⟩
      obtain ⟨hst, hpt⟩ := Prod.mk.inj hsaved
      rw [wp_bind, wp_iff_ok]
      intro _ r' hr'
      have hrest := wp_iff_ok.mp wp_restoreState_restored _ _ hr'
      refine ih (preservesContained (keepsOutside_restoreState hp)
        (keepsSendQueues_of_queues keepsQueues_restoreState) r _ r' hr hr') ?_ ?_
      · rw [hrest.state, hrest.partner, hst, hpt]
        exact houter
      · rw [hrest.savedState]
        exact boundIn_aborted
    -- The end of the rounds that may be followed by another one.
    have hlast : ∀ {r tag' tag'' err}, Contained A M c p u r ∧ r.saved p = s.saved p →
        wp (fun _ => True) (if (!(s.tcb p).savedPartner.isNilthread) = true then do
          restoreState p
          unwindLoop p reason n tag'
        else setIpcError p tag'' err) (fun _ t => Contained A M c p u t) r := by
      intro r _ _ _ hr
      split
      · exact hredo hr
      · exact herr hr.1
    simp only [unwindLoop, getState, getPartnerTcb, wp_bind, wp_readTcb, wp_pure]
    rw [wp_iff_ok]
    intro _ r hset
    have hrp : r.tcb p = { s.tcb p with state := .running } := by
      cases hset
      simp
    have hr : Contained A M c p u r ∧ r.saved p = s.saved p := by
      have hout : KeepsOutside A (setState p .running) := keepsOutside_modTcb hp
      have hqueue : KeepsQueues (setState p .running) := keepsQueues_modTcb fun _ => rfl
      refine ⟨preservesContained hout (keepsSendQueues_of_queues hqueue) s _ r hs hset, ?_⟩
      simp [KState.saved, hrp]
    have habort : ∀ {r : KState} {tag' : MsgTag} {err : Word}, A (getTcb (s.tcb p).partner) →
        Contained A M c p u r ∧ r.saved p = s.saved p →
        wp (fun _ => True) (abortPartner (getTcb (s.tcb p).partner) tag' err)
          (fun _ t => Contained A M c p u t ∧ t.saved p = s.saved p) r := by
      intro r tag' err hA hr
      rw [wp_iff_ok]
      intro _ t ht
      exact ⟨preservesContained (keepsOutside_abortPartner hA) keepsSendQueues_abortPartner r _ t
        hr.1 ht, (keepsSaved_abortWith r _ t ht).trans hr.2⟩
    -- The thread leaves the wakeup queue and, if it is polling, the send queue of its partner.
    have hleave : ∀ {r : KState}, Contained A M c p u r ∧ r.saved p = s.saved p →
        wp (fun _ => True) (cancelTimeout p)
          (fun _ t => Contained A M c p u t ∧ t.saved p = s.saved p) r := by
      intro r hr
      rw [wp_iff_ok]
      intro _ t ht
      refine ⟨preservesContained (keepsOutside_cancelTimeout hp)
        (keepsSendQueues_of_core keepsCore_cancelTimeout) r _ t hr.1 ht, ?_⟩
      exact (keepsSaved_of_ipc (keepsIpc_of_core keepsCore_cancelTimeout) r _ t ht).trans hr.2
    have hpoll : ∀ {r : KState}, A (getTcb (s.tcb p).partner) → c →
        Contained A M c p u r ∧ r.saved p = s.saved p →
        wp (fun _ => True) (dequeueSend p (getTcb (s.tcb p).partner))
          (fun _ t => Contained A M c p u t ∧ t.saved p = s.saved p) r := by
      intro r hA hc hr
      rw [wp_iff_ok]
      intro _ t ht
      exact ⟨preservesContained_dequeueSend hp hA (.inr ⟨hc, rfl⟩) r _ t hr.1 ht,
        (keepsSaved_of_ipc keepsIpc_dequeueSend r _ t ht).trans hr.2⟩
    rw [hrp]
    cases hst : (s.tcb p).state with
    | zero | running | halted | aborted =>
      simp +decide only [ite_false]
      exact hr.1
    | lockedRunningIpcDone =>
      simp +decide only [ite_true, ite_false]
      exact hredo hr
    | lockedRunning =>
      have hA := hinner.partner (by rw [hst]; rfl)
      simp +decide only [ite_true, ite_false, wp_bind]
      refine wp_calculateErrorcodes fun _ _ _ _ => ?_
      rw [wp_readTcb, wp_readTcb, wp_ite]
      split
      · rw [wp_bind]
        exact wp_mono (habort hA hr) fun _ _ h => hlast h
      · exact hlast hr
    | lockedWaiting =>
      have hA := hinner.partner (by rw [hst]; rfl)
      simp +decide only [ite_true, ite_false, wp_bind]
      refine wp_calculateErrorcodes fun _ _ _ _ => ?_
      rw [wp_readTcb, wp_pure, wp_ite]
      split
      · rw [wp_bind]
        exact wp_mono (habort hA hr) fun _ _ h => hlast h
      · exact hlast hr
    | lockedRunningNested =>
      have hA := hinner.partner (by rw [hst]; rfl)
      simp +decide only [ite_true, ite_false, wp_bind]
      refine wp_calculateErrorcodes fun _ _ _ _ => ?_
      rw [wp_readTcb, wp_pure, wp_ite]
      split
      · rw [wp_bind]
        exact wp_mono (habort hA hr) fun _ _ h => herr h.1
      · exact herr hr.1
    | waitingTunneledPf =>
      have hA := hinner.partner (by rw [hst]; rfl)
      simp +decide only [ite_true, ite_false, wp_bind]
      refine wp_calculateErrorcodes fun _ _ _ _ => ?_
      exact wp_mono (habort hA hr) fun _ _ h => herr h.1
    | waitingForever | waitingTimeout =>
      simp +decide only [ite_true, ite_false]
      rw [wp_bind]
      refine wp_mono (hleave hr) fun _ r1 h1 => ?_
      split
      · exact hredo h1
      · exact herr h1.1
    | polling =>
      have hA := hinner.partner (by rw [hst]; rfl)
      have hc := hinner.polls (by rw [hst]; rfl)
      simp +decide only [ite_true, ite_false]
      rw [wp_bind]
      refine wp_mono (hleave hr) fun _ r1 h1 => ?_
      rw [wp_bind]
      refine wp_mono (hpoll hA hc h1) fun _ r2 h2 => ?_
      split
      · exact hredo h2
      · exact herr h2.1

/-- The threads an unwinding of `p` touches. -/
def KState.Touched (s : KState) (p q : TcbPtr) : Prop := q = p ∨ s.IpcPartner p q

theorem KState.boundIn_state :
    BoundIn (s.Touched p) (s.Polls p) (s.tcb p).state (s.tcb p).partner :=
  ⟨fun h => .inr (.inl ⟨h, rfl⟩), .inl⟩

theorem KState.boundIn_saved :
    BoundIn (s.Touched p) (s.Polls p) (s.tcb p).savedState (s.tcb p).savedPartner :=
  ⟨fun h => .inr (.inr ⟨h, rfl⟩), .inr⟩

theorem KState.contained_refl : Contained (s.Touched p) (s.QueuedAt p) (s.Polls p) p s s :=
  ⟨fun _ _ => rfl, fun _ h => .head h, Reaches.confined⟩

/-- What `unwind` reads of a thread. -/
theorem contained_unwind {r : KState} (h : Contained (s.Touched p) (s.QueuedAt p) (s.Polls p) p s r)
    (hipc : (r.tcb p).ipc = (s.tcb p).ipc) :
    wp (fun _ => True) (unwind p reason)
      (fun _ t => Contained (s.Touched p) (s.QueuedAt p) (s.Polls p) p s t) r := by
  have hstate : (r.tcb p).ipc.state = (s.tcb p).ipc.state := congrArg Tcb.state hipc
  have hpartner : (r.tcb p).ipc.partner = (s.tcb p).ipc.partner := congrArg Tcb.partner hipc
  simp only [Tcb.ipc] at hstate hpartner
  obtain ⟨hss, hsp⟩ := Tcb.saved_of_ipc hipc
  rw [unwind, wp_bind]
  refine wp_getTag (contained_unwindLoop (.inl rfl) 3 h ?_ ?_)
  · rw [hstate, hpartner]
    exact KState.boundIn_state
  · rw [hss, hsp]
    exact KState.boundIn_saved

/-! ## Deletion and migration -/

/-- The send queue of `p` is emptied. -/
theorem wp_drainSendQueue_frame (n : Nat) : ∀ {s : KState},
    (∀ q, (s.tcb p).sendHead = some q → M q) → Confined M c p s.sendList →
    wp (fun _ => True) (drainSendQueue p n)
      (fun _ t => ∀ q ≠ p, t.tcb q = s.tcb q ∨ M q ∧ t.tcb q = (s.tcb q).unqueued) s := by
  induction n with
  | zero => exact fun _ _ => trivial
  | succ n ih =>
    intro s hhead hlinks
    rw [drainSendQueue, wp_bind, wp_readTcb]
    cases hq : (s.tcb p).sendHead with
    | none => exact fun q _ => .inl rfl
    | some x =>
      have hx : M x := hhead x hq
      have htcb : wp (fun _ => True) (dequeueSend x p) (fun _ t => ∀ q ≠ p,
          t.tcb q = if q = x then (s.tcb q).unqueued else s.tcb q) s := by
        rw [dequeueSend, wp_bind, wp_gets, wp_bind]
        cases Ring.dequeue ((id s).tcb p).sendHead (id s).sendList x with
        | none => exact trivial
        | some r =>
          simp only [ofLinks, wp_pure, setSendQueue, setSendLinks, setSend, wp_bind, wp_modTcb,
            wp_modify]
          intro q hqp
          rcases eq_or_ne q x with rfl | hqx
          · simp [hqp, Tcb.unqueued]
          · simp [hqp, hqx]
      rw [wp_bind, wp_iff_ok]
      intro _ t ht
      obtain ⟨hhead', hlinks'⟩ :=
        wp_iff_ok.mp (wp_dequeueSend_confined (o := p) hhead hlinks (.inl hx)) _ t ht
      have ht := wp_iff_ok.mp htcb _ t ht
      refine wp_mono (ih hhead' hlinks') fun _ r hr q hqp => ?_
      rcases eq_or_ne q x with rfl | hqx
      · have hrq := hr q hqp
        rw [ht q hqp, if_pos rfl, Tcb.unqueued_unqueued] at hrq
        exact .inr ⟨hx, hrq.elim id And.right⟩
      · have hrq := hr q hqp
        rwa [ht q hqp, if_neg hqx] at hrq

/-- What a deletion of `p` leaves of the other TCBs. -/
def KState.Deleted (s : KState) (p : TcbPtr) (t : KState) : Prop :=
  ∀ q, ¬s.Touched p q → t.tcb q = s.tcb q ∨ s.QueuedAt p q ∧ t.tcb q = (s.tcb q).unqueued

theorem deleteTcb_frame (h : deleteTcb p s = .ok ((), t)) : s.Deleted p t := by
  suffices wp (fun _ => True) (deleteTcb p) (fun _ t => s.Deleted p t) s from
    wp_iff_ok.mp this () t h
  -- The end of the deletion, from a state with the senders still queued or without them.
  have hend : ∀ {r : KState} {f : Tcb → Tcb}, s.Deleted p r →
      wp (fun _ => True) (modTcb p f) (fun _ t => s.Deleted p t) r := by
    intro r f hr
    refine wp_modTcb.mpr fun q hq => ?_
    have hne : q ≠ p := fun h => hq (.inl h)
    have hset : Function.update r.tcb p (f (r.tcb p)) q = r.tcb q := Function.update_of_ne hne _ _
    simpa only [hset] using hr q hq
  have hstart : s.Deleted p s := fun _ _ => .inl rfl
  rw [deleteTcb, wp_bind, wp_readTcb, wp_ite]
  split
  · rw [wp_bind, wp_iff_ok]
    intro _ r1 h1
    have hr1 : Contained (s.Touched p) (s.QueuedAt p) (s.Polls p) p s r1 :=
      preservesContained (keepsOutside_dequeueReady (.inl rfl))
        (keepsSendQueues_of_core keepsCore_dequeueReady) s _ r1 KState.contained_refl h1
    have hipc : (r1.tcb p).ipc = (s.tcb p).ipc :=
      congrFun (congrArg Prod.fst (keepsIpc_of_core keepsCore_dequeueReady s _ r1 h1)) p
    have hdrain : ∀ {r : KState} {f g : Tcb → Tcb},
        Contained (s.Touched p) (s.QueuedAt p) (s.Polls p) p s r →
        wp (fun _ => True) (do drainSendQueue p numTcbs; modTcb p f; modTcb p g)
          (fun _ t => s.Deleted p t) r := by
      intro r f g hr
      rw [wp_bind]
      refine wp_mono (wp_drainSendQueue_frame numTcbs hr.head hr.links) fun _ t ht => ?_
      have hdel : s.Deleted p t := by
        intro q hq
        have hqp := ht q fun h => hq (.inl h)
        rwa [hr.others q hq] at hqp
      rw [wp_bind]
      exact wp_mono (hend hdel) fun _ _ h => hend h
    simp only [getState, wp_bind, wp_readTcb, wp_pure, wp_ite]
    split
    · exact wp_mono (contained_unwind hr1 hipc) fun _ _ h => by simpa only [wp_bind] using hdrain h
    · simpa only [wp_bind] using hdrain hr1
  · exact hend hstart

/-- The TCBs and the links of the send queues. -/
def KState.threads (s : KState) : (TcbPtr → Tcb) × (TcbPtr → Link TcbPtr) := (s.tcb, s.sendList)

theorem keepsThreads_allocateUtcb {o : Option SpacePtr} {loc : Word} :
    Keeps KState.threads (allocateUtcb o loc) := by
  have hkmem : ∀ {f}, Keeps KState.threads (modKmem f) := .modify fun _ => rfl
  have hspace : ∀ {sp f}, Keeps KState.threads (modSpace sp f) := .modify fun _ => rfl
  have hzero : ∀ {n}, Keeps KState.threads (zeroUtcbPage n) := .modify fun _ => rfl
  unfold allocateUtcb
  repeat' first | with_reducible refine Keeps.bind ?_ fun _ => ?_ | split
  all_goals grind

theorem wp_migrateToSpace_frame {o : Option SpacePtr} :
    wp (fun _ => True) (migrateToSpace p o)
      (fun _ t => ∀ q, ¬s.Touched p q → t.tcb q = s.tcb q) s := by
  rw [migrateToSpace, wp_bind, wp_readTcb, wp_bind, wp_iff_ok]
  intro utcb r1 h1
  obtain ⟨htcb, hlinks⟩ := Prod.mk.inj (keepsThreads_allocateUtcb s utcb r1 h1)
  have hr1 : Contained (s.Touched p) (s.QueuedAt p) (s.Polls p) p s r1 := by
    refine ⟨fun q _ => by rw [htcb], ?_, ?_⟩
    · rw [htcb]
      exact KState.contained_refl.head
    · rw [hlinks]
      exact KState.contained_refl.links
  rw [wp_bind]
  refine wp_mono (contained_unwind hr1 (by rw [htcb])) fun _ r2 h2 => ?_
  have hrest : KeepsOutside (s.Touched p) (do
      let old := (← readTcb p).space
      if ← removeTcb old then
        unmapSpace (← derefSpace o)
        freeSpace (← derefSpace old)
      setSpace p o
      modTcb p fun d => { d with utcb := some utcb }) := by
    have hp : s.Touched p p := .inl rfl
    repeat' first | with_reducible refine Keeps.bind ?_ fun _ => ?_ | split
    all_goals grind
  refine hrest.wp fun _ t ht q hq => ?_
  rw [KState.tcbsOutside_eq_iff.mp ht q hq]
  exact h2.others q hq

/-! ## The destination -/

/-- No thread is left in the TCB. -/
structure Tcb.IsDeleted (d : Tcb) : Prop where
  globalId : d.myselfGlobal = .nilthread
  localId : d.myselfLocal = .nilthread
  space : d.space = none
  utcb : d.utcb = none
  state : d.state = .aborted

/-- The space the arguments choose: that of the space specifier, or a new one for a thread that is
created with itself for the specifier. -/
def KState.chosenSpace (s : KState) (a : ThreadControlArgs) : Option SpacePtr :=
  if (s.tcb (getTcb a.destTid)).isExisting then (s.tcb (getTcb a.spaceTid)).space else s.newSpace a

/-- The thread of the destination is as the arguments of a creation or modification say. -/
structure KState.Configures (s : KState) (a : ThreadControlArgs) (t : KState) : Prop where
  globalId : (t.tcb (getTcb a.destTid)).myselfGlobal = a.destTid
  scheduler : a.schedulerTid.isNilthread = false →
    (t.tcb (getTcb a.destTid)).scheduler = a.schedulerTid
  pager : a.pagerTid.isNilthread = false → (t.tcb (getTcb a.destTid)).isActivated ∧
    (t.utcbOf (getTcb a.destTid)).pager = a.pagerTid
  space : (t.tcb (getTcb a.destTid)).space = s.chosenSpace a
  location : a.utcbLocation ≠ noLocation →
    (s.tcb (getTcb a.destTid)).isExisting ∨ a.utcbLocation ≠ noLocation32 →
    (t.tcb (getTcb a.destTid)).myselfLocal = ⟨a.utcbLocation⟩
  /-- A new space is allocated and has the new thread for its only one. -/
  fresh : (s.tcb (getTcb a.destTid)).isExisting = false → a.destTid = a.spaceTid →
    ∃ addr kmem, s.kmem.alloc sizeofSpace = some (addr, kmem) ∧
      (t.tcb (getTcb a.destTid)).space = some (.heap addr) ∧
      t.space (.heap addr) = { Space.zero with threadCount := 1 }

/-- The call is to move the thread of its destination to another space. -/
def KState.Migrates (s : KState) (a : ThreadControlArgs) : Prop :=
  a.spaceTid.isNilthread = false ∧ (s.tcb (getTcb a.destTid)).isExisting ∧
    (s.tcb (getTcb a.destTid)).space ≠ (s.tcb (getTcb a.spaceTid)).space

/-- The law of a successful call. -/
structure KState.ControlLaw (s : KState) (a : ThreadControlArgs) (t : KState) : Prop where
  deleted : a.spaceTid.isNilthread → (s.tcb (getTcb a.destTid)).isExisting →
    (t.tcb (getTcb a.destTid)).IsDeleted
  /-- The deletion of a thread that does not exist has no effect. -/
  absent : a.spaceTid.isNilthread → (s.tcb (getTcb a.destTid)).isExisting = false → t = s
  configured : a.spaceTid.isNilthread = false → s.Configures a t
  others : ∀ q ≠ getTcb a.destTid, t.tcb q = s.tcb q ∨
    (s.Deletes a ∨ s.Migrates a) ∧ s.IpcPartner (getTcb a.destTid) q ∨
    s.Deletes a ∧ s.QueuedAt (getTcb a.destTid) q ∧ t.tcb q = (s.tcb q).unqueued

theorem wp_deleteTcb_aborted :
    wp (fun _ => True) (deleteTcb p) (fun _ t => (t.tcb p).state = .aborted) s := by
  rw [deleteTcb, wp_bind, wp_readTcb, wp_ite]
  split
  · refine wp_bind_of_forall fun _ _ => wp_bind_of_forall fun _ _ => ?_
    split
    · refine wp_bind_of_forall fun _ _ => wp_bind_of_forall fun _ _ => wp_bind_of_forall fun _ _ => ?_
      simp
    · refine wp_bind_of_forall fun _ _ => wp_bind_of_forall fun _ _ => ?_
      simp
  · simp

theorem wp_deleteTcb_isDeleted :
    wp (fun _ => True) (deleteTcb p) (fun _ t => (t.tcb p).IsDeleted) s := by
  rw [wp_iff_ok]
  intro _ t h
  have hident := wp_iff_ok.mp wp_deleteTcb _ t h
  simp only [KState.tcbIdent, Tcb.ident, TcbIdent.mk.injEq] at hident
  obtain ⟨hglobal, hlocal, hutcb, hspace, -⟩ := hident
  exact ⟨hglobal, hlocal, hspace, hutcb, wp_iff_ok.mp wp_deleteTcb_aborted _ t h⟩

theorem threadDelete_law (hacc : s.Accepts a) (hnil : a.spaceTid.isNilthread)
    (h : threadDelete (getTcb a.destTid) s = .ok (true, t)) : s.ControlLaw a t := by
  suffices wp (fun _ => True) (threadDelete (getTcb a.destTid))
      (fun r t => r = true → s.ControlLaw a t) s from wp_iff_ok.mp this true t h rfl
  have hconf : ∀ {t}, a.spaceTid.isNilthread = false → s.Configures a t := by
    intro t hno
    rw [hnil] at hno
    cases hno
  rw [threadDelete, wp_bind, wp_getCurrentTcb, wp_ite]
  split
  · rw [wp_failWith]
    exact ⟨fun _ => trivial, fun _ _ hr => by cases hr⟩
  · rename_i hself
    rw [wp_bind, wp_readTcb, wp_ite]
    split
    · rename_i hex
      rw [wp_bind, wp_iff_ok]
      intro _ t1 h1
      have hdel := wp_iff_ok.mp wp_deleteTcb_isDeleted _ t1 h1
      have hkeep : KeepsOutside (fun _ => False) (do
          if ← removeTcb (s.tcb (getTcb a.destTid)).space then
            let sp ← derefSpace (s.tcb (getTcb a.destTid)).space
            unmapSpace sp
            freeSpace sp
          pure true) := by
        grind
      refine hkeep.wp fun _ t2 h2 _ => ?_
      have htcb : ∀ q, t2.tcb q = t1.tcb q := fun q => KState.tcbsOutside_eq_iff.mp h2 q id
      refine ⟨fun _ _ => ?_, fun _ hno => ?_, hconf, fun q hq => ?_⟩
      · rwa [htcb]
      · rw [hex] at hno
        cases hno
      · have hdeletes : s.Deletes a := ⟨hacc, hnil, hself, hex⟩
        rw [htcb]
        by_cases hpartner : s.IpcPartner (getTcb a.destTid) q
        · exact .inr (.inl ⟨.inl hdeletes, hpartner⟩)
        · have hout : ¬s.Touched (getTcb a.destTid) q := fun ht => ht.elim hq hpartner
          exact (deleteTcb_frame h1 q hout).imp_right fun hqueued => .inr ⟨hdeletes, hqueued⟩
    · rename_i hex
      exact fun _ => ⟨fun _ h => absurd h hex, fun _ _ => rfl, hconf, fun _ _ => .inl rfl⟩

/-! ## The pager -/

/-- `p` is activated, with the pager `tid`. -/
def KState.HasPager (p : TcbPtr) (tid : ThreadId) (s : KState) : Prop :=
  ∃ w, (s.tcb p).utcb = some w ∧ (s.utcb w).pager = tid

theorem KState.HasPager.utcbOf (h : s.HasPager p tid) :
    (s.tcb p).isActivated ∧ (s.utcbOf p).pager = tid := by
  obtain ⟨w, hw, hpager⟩ := h
  rw [Tcb.isActivated, hw, KState.utcbOf_eq hw]
  exact ⟨rfl, hpager⟩

theorem preservesPager_modTcb {f : Tcb → Tcb} (hf : ∀ d, (f d).utcb = d.utcb) :
    Preserves (KState.HasPager p tid) (modTcb q f) := by
  refine .modify fun s ⟨w, hw, hpager⟩ => ⟨w, ?_, hpager⟩
  rcases eq_or_ne p q with rfl | hne
  · simpa [hf] using hw
  · simpa [hne] using hw

theorem preservesPager_modUtcb {f : Utcb → Utcb} (hf : ∀ v, (f v).pager = v.pager) :
    Preserves (KState.HasPager p tid) (modUtcb q f) := by
  refine .of_wp fun s ⟨w, hw, hpager⟩ => wp_modUtcb.mpr ⟨fun _ => trivial, fun v _ => ⟨w, hw, ?_⟩⟩
  rcases eq_or_ne w v with rfl | hne
  · simpa [hf] using hpager
  · simpa [hne] using hpager

theorem wp_setPager_pager :
    wp (fun _ => True) (setPager p tid) (fun _ t => t.HasPager p tid) s :=
  wp_modUtcb.mpr ⟨fun _ => trivial, fun w hw => ⟨w, hw, by simp⟩⟩

theorem preservesPager_setGlobalId : Preserves (KState.HasPager p tid) (setGlobalId q tid') :=
  .bind (preservesPager_modTcb fun _ => rfl) fun _ => preservesPager_modUtcb fun _ => rfl

theorem wp_startThread_pager :
    wp (fun _ => True) (startThread p tid) (fun _ t => t.HasPager p tid) s := by
  have hstack : ∀ {n}, Preserves (KState.HasPager p tid) (createStartupStack p n) := by
    intro n
    unfold createStartupStack initStack notify pushFrame
    refine .bind (preservesPager_modTcb fun _ => rfl) fun _ => ?_
    exact .bind (preservesPager_modTcb fun _ => rfl) fun _ => preservesPager_modTcb fun _ => rfl
  have hwait : Preserves (KState.HasPager p tid) (fakeWaitForStartup p tid) := by
    unfold fakeWaitForStartup setState setPartner setBr
    refine .bind (preservesPager_modTcb fun _ => rfl) fun _ => ?_
    refine .bind (preservesPager_modTcb fun _ => rfl) fun _ => ?_
    exact .bind (preservesPager_modUtcb fun _ => rfl) fun _ => preservesPager_modTcb fun _ => rfl
  rw [startThread, wp_bind, activate]
  refine wp_bind_of_forall fun c _ => wp_bind_of_forall fun _ _ => wp_bind_of_forall fun _ _ =>
    wp_bind_of_forall fun _ r => ?_
  rw [wp_bind]
  refine wp_mono wp_setPager_pager fun _ r1 h1 => ?_
  have hrest : Preserves (KState.HasPager p tid) (do
      modUtcb p fun u => { u with processorNo := 0 }
      setScheduler p c.scheduler
      modUtcb p fun u => { u with exceptionHandler := .nilthread }
      createStartupStack p .threadStartup) := by
    refine .bind (preservesPager_modUtcb fun _ => rfl) fun _ => ?_
    refine .bind (preservesPager_modTcb fun _ => rfl) fun _ => ?_
    exact .bind (preservesPager_modUtcb fun _ => rfl) fun _ => hstack
  exact hrest.wp h1 fun _ r2 h2 => hwait.wp h2 fun _ _ h => h

theorem wp_modifySettings_pager (hpager : a.pagerTid.isNilthread = false) :
    wp (fun _ => True) (modifySettings dest a)
      (fun r t => r = true → t.HasPager dest a.pagerTid) s := by
  have hset : wp (fun _ => True) (modifyPager dest a)
      (fun o t => o = none → t.HasPager dest a.pagerTid) s := by
    rw [modifyPager, if_neg (by simp [hpager]), wp_bind, wp_readTcb, wp_ite]
    split
    · rw [wp_bind]
      exact wp_mono wp_setPager_pager fun _ _ h _ => h
    · rw [wp_bind]
      refine wp_iff_ok.mpr fun b t1 _ => ?_
      rw [wp_ite]
      split
      · rw [wp_bind]
        exact wp_mono wp_startThread_pager fun _ _ h _ => h
      · exact fun hr => by cases hr
  rw [modifySettings, wp_bind]
  refine wp_mono hset fun o t ht => ?_
  cases o with
  | some err =>
    change wp _ (failWith err) _ _
    rw [wp_failWith]
    exact ⟨fun _ => trivial, fun _ _ hr => by cases hr⟩
  | none =>
    have hrest : Preserves (KState.HasPager dest a.pagerTid) (do
        if !a.schedulerTid.isNilthread then setScheduler dest a.schedulerTid
        if (← readTcb dest).myselfGlobal ≠ a.destTid then setGlobalId dest a.destTid
        pure true) := by
      have hsched : Preserves (KState.HasPager dest a.pagerTid)
          (setScheduler dest a.schedulerTid) := preservesPager_modTcb fun _ => rfl
      have hid : Preserves (KState.HasPager dest a.pagerTid) (setGlobalId dest a.destTid) :=
        preservesPager_setGlobalId
      have hread : Preserves (KState.HasPager dest a.pagerTid) (readTcb dest) := .gets _
      repeat' first | with_reducible refine Preserves.bind ?_ fun _ => ?_ | split
      all_goals first | assumption | exact .pure _
    exact hrest.wp (ht rfl) fun _ _ h _ => h

/-! ## Modification and creation -/

section Others

variable {n : Notify} {sp : Option SpacePtr} {err : Word}

@[grind ←] theorem keepsOutside_initStack (hp : A p) : KeepsOutside A (initStack p) := by
  unfold initStack
  grind

@[grind ←] theorem keepsOutside_initTcb (hp : A p) : KeepsOutside A (initTcb p) := by
  unfold initTcb setTimesliceLength setTotalQuantum setPriority setSensitivePrio setMaximumDelay
  grind

@[grind ←] theorem keepsOutside_createInactive (hp : A p) :
    KeepsOutside A (createInactive p tid tid') := by
  unfold createInactive Kernel.init
  refine .bind (.bind (keepsOutside_modTcb hp) fun _ => ?_) fun _ => keepsOutside_modTcb hp
  exact .bind (keepsOutside_initTcb hp) fun _ => keepsOutside_initStack hp

@[grind ←] theorem keepsOutside_setGlobalId (hp : A p) : KeepsOutside A (setGlobalId p tid) := by
  unfold setGlobalId
  grind

@[grind ←] theorem keepsOutside_startThread (hp : A p) : KeepsOutside A (startThread p tid) := by
  unfold startThread activate fakeWaitForStartup setPager setScheduler createStartupStack notify
    pushFrame setState setPartner setBr
  repeat' with_reducible refine Keeps.bind ?_ fun _ => ?_
  all_goals grind

@[grind ←] theorem keepsOutside_failWith : KeepsOutside A (failWith err) := by
  unfold failWith setErrorCode
  grind

@[grind ←] theorem keepsOutside_modifySettings (hp : A dest) :
    KeepsOutside A (modifySettings dest a) := by
  unfold modifySettings modifyPager checkUtcbLocation setPager
  repeat' first | with_reducible refine Keeps.bind ?_ fun _ => ?_ | split
  all_goals grind

@[grind ←] theorem keepsOutside_createThread (hp : A dest) :
    KeepsOutside A (createThread dest a) := by
  have hspace : KeepsOutside A (newThreadSpace a) := by
    unfold newThreadSpace allocateSpace
    repeat' first | with_reducible refine Keeps.bind ?_ fun _ => ?_ | split
    all_goals grind
  unfold createThread addTcb
  repeat' first | with_reducible refine Keeps.bind ?_ fun _ => ?_ | split
  all_goals grind

end Others

/-- A modification that succeeds, cut into its three parts: the location is stored, the thread is
moved if it has to be, and the other arguments are set. -/
theorem threadModify_parts (h : threadModify dest a s = .ok (true, t)) :
    ∃ r1 r2, (r1 = if a.utcbLocation = noLocation then s else s.withLocation dest a.utcbLocation) ∧
      (if (s.tcb dest).space = (s.tcb (getTcb a.spaceTid)).space then r2 = r1
        else migrateToSpace dest (s.tcb (getTcb a.spaceTid)).space r1 = .ok ((), r2)) ∧
      modifySettings dest a r2 = .ok (true, t) := by
  have hfail : ∀ {r : KState} {err : Word}, failWith err r ≠ .ok (true, t) := by
    intro r err hr
    have hwp : wp (fun _ => True) (failWith err) (fun b _ => b = false) r := by
      rw [wp_failWith]
      exact ⟨fun _ => trivial, fun _ _ => rfl⟩
    cases wp_iff_ok.mp hwp true t hr
  obtain ⟨b, r1, h1, h⟩ := bind_eq_ok.mp h
  have hloc : wp (fun _ => True) (modifyUtcbLocation dest a.utcbLocation) (fun b r => b = true →
      r = if a.utcbLocation = noLocation then s else s.withLocation dest a.utcbLocation) s := by
    rw [wp_modifyUtcbLocation]
    split
    · exact fun _ => rfl
    · split
      · exact nofun
      · refine ⟨fun _ => trivial, fun sp _ => ?_⟩
        split
        · exact fun _ => rfl
        · exact nofun
  cases b with
  | false => exact absurd h hfail
  | true =>
    have hr1 := wp_iff_ok.mp hloc true r1 h1 rfl
    have hspace : ∀ q, (r1.tcb q).space = (s.tcb q).space := by
      intro q
      rw [hr1]
      split
      · rfl
      · exact KState.withLocation_space _
    obtain ⟨sp, r1', hread, h⟩ := bind_eq_ok.mp h
    cases hread
    dsimp only at h
    split at h
    · exact absurd h hfail
    · obtain ⟨d, r1', hread, h⟩ := bind_eq_ok.mp h
      cases hread
      refine ⟨r1, ?_⟩
      rw [← hspace dest, ← hspace (getTcb a.spaceTid)]
      split at h
      · rename_i hmove
        obtain ⟨_, r2, h2, h⟩ := bind_eq_ok.mp h
        exact ⟨r2, hr1, by rwa [if_neg hmove], h⟩
      · rename_i hstay
        exact ⟨r1, hr1, by rw [if_pos (not_not.mp hstay)], h⟩

theorem KState.withLocation_tcb_of_ne {loc : Word} (hq : q ≠ p) :
    (s.withLocation p loc).tcb q = s.tcb q :=
  Function.update_of_ne hq _ _

/-- The fields that `unwind` reads are not those that a new location changes. -/
theorem KState.withLocation_touched {loc : Word} :
    (s.withLocation p loc).Touched p q ↔ s.Touched p q := by
  simp [KState.Touched, KState.IpcPartner, KState.withLocation]

theorem threadModify_law (hnil : a.spaceTid.isNilthread = false)
    (hex : (s.tcb (getTcb a.destTid)).isExisting)
    (h : threadModify (getTcb a.destTid) a s = .ok (true, t)) : s.ControlLaw a t := by
  obtain ⟨r1, r2, hr1, hr2, hset⟩ := threadModify_parts h
  have hident1 : r1.tcbIdent (getTcb a.destTid) =
      { s.tcbIdent (getTcb a.destTid) with
        myselfLocal := if a.utcbLocation = noLocation then (s.tcb (getTcb a.destTid)).myselfLocal
          else ⟨a.utcbLocation⟩ } := by
    rw [hr1]
    split
    · rfl
    · exact KState.withLocation_tcbIdent _
  have hothers1 : ∀ q ≠ getTcb a.destTid, r1.tcb q = s.tcb q := by
    intro q hq
    rw [hr1]
    split
    · rfl
    · exact KState.withLocation_tcb_of_ne hq
  have htouched : ∀ q, r1.Touched (getTcb a.destTid) q ↔ s.Touched (getTcb a.destTid) q := by
    intro q
    rw [hr1]
    split
    · rfl
    · exact KState.withLocation_touched
  -- What the first two parts make of the destination, and of the other TCBs.
  obtain ⟨hident2, hothers2⟩ : (∃ utcb, r2.tcbIdent (getTcb a.destTid) =
        { r1.tcbIdent (getTcb a.destTid) with
          utcb := utcb, space := (s.tcb (getTcb a.spaceTid)).space }) ∧
      ∀ q ≠ getTcb a.destTid, r2.tcb q = s.tcb q ∨
        s.Migrates a ∧ s.IpcPartner (getTcb a.destTid) q := by
    split at hr2
    · rename_i hstay
      rw [hr2]
      refine ⟨⟨(r1.tcb (getTcb a.destTid)).utcb, ?_⟩, fun q hq => .inl (hothers1 q hq)⟩
      have hspace : (r1.tcb (getTcb a.destTid)).space = (s.tcb (getTcb a.destTid)).space :=
        congrArg TcbIdent.space hident1
      rw [← hstay, ← hspace]
      rfl
    · rename_i hmove
      refine ⟨?_, fun q hq => ?_⟩
      · obtain ⟨u, hu⟩ := wp_iff_ok.mp wp_migrateToSpace _ r2 hr2
        exact ⟨some u, hu⟩
      · by_cases hpartner : s.IpcPartner (getTcb a.destTid) q
        · exact .inr ⟨⟨hnil, hex, hmove⟩, hpartner⟩
        · have hout : ¬r1.Touched (getTcb a.destTid) q :=
            fun ht => ((htouched q).mp ht).elim hq hpartner
          rw [wp_iff_ok.mp wp_migrateToSpace_frame _ r2 hr2 q hout]
          exact .inl (hothers1 q hq)
  obtain ⟨utcb, hident2⟩ := hident2
  obtain ⟨⟨utcb', -, hident⟩, -⟩ := wp_iff_ok.mp wp_modifySettings true t hset
  rw [hident2, hident1] at hident
  have hno : a.spaceTid.isNilthread ≠ true := by simp [hnil]
  refine ⟨fun h => absurd h hno, fun h => absurd h hno, fun _ => ⟨?_, ?_, ?_, ?_, ?_, ?_⟩, ?_⟩
  · exact congrArg TcbIdent.myselfGlobal hident
  · intro hsched
    have h : (t.tcb (getTcb a.destTid)).scheduler = _ := congrArg TcbIdent.scheduler hident
    rwa [hsched] at h
  · intro hpager
    exact (wp_iff_ok.mp (wp_modifySettings_pager hpager) true t hset rfl).utcbOf
  · rw [KState.chosenSpace, if_pos hex]
    exact congrArg TcbIdent.space hident
  · intro hloc _
    have h : (t.tcb (getTcb a.destTid)).myselfLocal = _ := congrArg TcbIdent.myselfLocal hident
    rwa [if_neg hloc] at h
  · intro hno
    rw [hex] at hno
    cases hno
  · intro q hq
    have hkeep : KeepsOutside (· = getTcb a.destTid) (modifySettings (getTcb a.destTid) a) :=
      keepsOutside_modifySettings rfl
    rw [KState.tcbsOutside_eq_iff.mp (hkeep r2 true t hset) q hq]
    exact (hothers2 q hq).imp_right fun h => .inl ⟨.inr h.1, h.2⟩

/-- The pager of a new thread. -/
theorem wp_createThread_pager (hpager : a.pagerTid.isNilthread = false) :
    wp (fun _ => True) (createThread dest a) (fun _ t => t.HasPager dest a.pagerTid) s := by
  have hend : ∀ {r : KState}, wp (fun _ => True) (do
      let space ← newThreadSpace a
      setSpace dest space
      addTcb space
      if !a.pagerTid.isNilthread then startThread dest a.pagerTid)
      (fun _ t => t.HasPager dest a.pagerTid) r := by
    intro r
    refine wp_bind_of_forall fun o _ => wp_bind_of_forall fun _ _ => wp_bind_of_forall fun _ _ => ?_
    rw [wp_ite, if_pos (by simp [hpager])]
    exact wp_startThread_pager
  rw [createThread]
  refine wp_bind_of_forall fun _ r => ?_
  rw [wp_ite]
  split
  · exact wp_bind_of_forall fun _ _ => hend
  · exact hend

/-- A thread that is created with itself for the specifier gets a space of its own. -/
theorem wp_createThread_fresh (hself : a.destTid = a.spaceTid) (hpager : a.pagerTid.isNilthread) :
    wp (fun _ => True) (createThread dest a) (fun _ t => ∃ addr kmem,
      s.kmem.alloc sizeofSpace = some (addr, kmem) ∧ (t.tcb dest).space = some (.heap addr) ∧
      t.space (.heap addr) = { Space.zero with threadCount := 1 }) s := by
  have hend : ∀ {r : KState}, r.kmem = s.kmem → wp (fun _ => True) (do
      let space ← newThreadSpace a
      setSpace dest space
      addTcb space
      if !a.pagerTid.isNilthread then startThread dest a.pagerTid) (fun _ t => ∃ addr kmem,
        s.kmem.alloc sizeofSpace = some (addr, kmem) ∧ (t.tcb dest).space = some (.heap addr) ∧
        t.space (.heap addr) = { Space.zero with threadCount := 1 }) r := by
    intro r hr
    rw [wp_bind, newThreadSpace, wp_ite, if_neg (by simp [hself]), wp_bind]
    refine wp_allocateSpace fun addr kmem halloc => ?_
    rw [hr] at halloc
    simp [setSpace, addTcb, wp_derefSpace, hpager, halloc, Space.zero]
  rw [createThread, wp_bind, createInactive, wp_bind, wp_init, wp_modTcb, wp_ite]
  split
  · rw [wp_bind, setUtcbLocation, wp_modTcb]
    exact hend rfl
  · exact hend rfl

theorem threadCreate_law (hacc : s.Accepts a) (hnil : a.spaceTid.isNilthread = false)
    (hex : (s.tcb (getTcb a.destTid)).isExisting = false)
    (h : threadCreate (getTcb a.destTid) a s = .ok (true, t)) : s.ControlLaw a t := by
  obtain ⟨o, r, hcheck, h⟩ := bind_eq_ok.mp h
  obtain ⟨rfl, hcreates⟩ := wp_iff_ok.mp (wp_createCheck_creates hacc hnil hex) o r hcheck
  cases o with
  | some err =>
    have hwp : wp (fun _ => True) (failWith err) (fun b _ => b = false) r := by
      rw [wp_failWith]
      exact ⟨fun _ => trivial, fun _ _ => rfl⟩
    cases wp_iff_ok.mp hwp true t h
  | none =>
    have hcreates := hcreates rfl
    obtain ⟨_, t1, h1, h⟩ := bind_eq_ok.mp h
    cases h
    obtain ⟨sp, utcb, -, hsp, hident⟩ := wp_iff_ok.mp wp_createThread _ t h1
    have hno : a.spaceTid.isNilthread ≠ true := by simp [hnil]
    refine ⟨fun h => absurd h hno, fun h => absurd h hno, fun _ => ⟨?_, ?_, ?_, ?_, ?_, ?_⟩, ?_⟩
    · exact congrArg TcbIdent.myselfGlobal hident
    · exact fun _ => congrArg TcbIdent.scheduler hident
    · intro hpager
      exact (wp_iff_ok.mp (wp_createThread_pager hpager) _ t h1).utcbOf
    · rw [KState.chosenSpace, if_neg (by simp [hex]), hsp]
      exact congrArg TcbIdent.space hident
    · intro _ hloc
      have hne : a.utcbLocation ≠ noLocation32 := by simpa [hex] using hloc
      have h : (t.tcb (getTcb a.destTid)).myselfLocal = _ := congrArg TcbIdent.myselfLocal hident
      rwa [TcbIdent.created, if_neg hne] at h
    · intro _ hself
      have hpager : a.pagerTid.isNilthread = true :=
        hcreates.2.2.2.2.2.elim id fun h => absurd hself h.1
      exact wp_iff_ok.mp (wp_createThread_fresh hself hpager) _ t h1
    · intro q hq
      have hkeep : KeepsOutside (· = getTcb a.destTid) (createThread (getTcb a.destTid) a) :=
        keepsOutside_createThread rfl
      exact .inl (KState.tcbsOutside_eq_iff.mp (hkeep r _ t h1) q hq)

/-- Every successful call on a user thread number obeys the law. -/
theorem controlLaw (h : sysThreadControl a s = .ok (true, t))
    (huser : userBase ≤ a.destTid.getThreadno) : s.ControlLaw a t := by
  suffices wp (fun _ => True) (sysThreadControl a) (fun r t => r = true → s.ControlLaw a t) s from
    wp_iff_ok.mp this true t h rfl
  have hfail : ∀ {err}, wp (fun _ => True) (failWith err) (fun r t => r = true → s.ControlLaw a t)
      s := by
    intro err
    rw [wp_failWith]
    exact ⟨fun _ => trivial, fun _ _ => nofun⟩
  have hsystem : ¬a.destTid.getThreadno < systemBase := by
    simp only [userBase] at huser
    omega
  rw [wp_sysThreadControl, if_neg hsystem, if_neg (Nat.not_lt.mpr huser)]
  split
  · exact hfail
  · rename_i hpriv
    split
    · exact hfail
    · rename_i hglobal
      have hacc : s.Accepts a := ⟨not_not.mp hpriv, by simpa using hglobal, huser⟩
      split
      · rename_i hnil
        refine wp_iff_ok.mpr fun r t hr hrt => threadDelete_law hacc hnil ?_
        rwa [hrt] at hr
      · rename_i hnil
        have hnil : a.spaceTid.isNilthread = false := by simpa using hnil
        split
        · rename_i hex
          refine wp_iff_ok.mpr fun r t hr hrt => threadModify_law hnil hex ?_
          rwa [hrt] at hr
        · rename_i hex
          refine wp_iff_ok.mpr fun r t hr hrt => threadCreate_law hacc hnil (by simpa using hex) ?_
          rwa [hrt] at hr

/-- A successful call in the sample system. -/
theorem exists_succeeds (a : ThreadControlArgs) (es : List Event) (P : KState → KState → Bool)
    (h : ((sampleRun (fun _ _ => True) es).any fun s =>
      match sysThreadControl a s with
      | .ok (true, t) => P s t
      | _ => false) = true) :
    ∃ s t, Reachable (fun _ _ => True) s ∧ sysThreadControl a s = .ok (true, t) ∧ P s t = true := by
  obtain ⟨s, hs, hP⟩ := exists_reachable _ es _ h
  split at hP
  · rename_i t hrun
    exact ⟨s, t, hs, hrun, hP⟩
  · cases hP

/-- `sigma0` creates a thread with its pager, in its own space. -/
theorem exists_controlLaw :
    ∃ s a t, Reachable (fun _ _ => True) s ∧ sysThreadControl a s = .ok (true, t) ∧
      a.pagerTid.isNilthread = false ∧ s.ControlLaw a t := by
  obtain ⟨s, t, hs, hrun, -⟩ := exists_succeeds
    ⟨sampleTid 0, sigma0Tid, rootServerTid, sigma0Tid, rootUtcbStart + 0x400⟩ [.idle, .resume]
    (fun _ _ => true) (by decide +kernel)
  exact ⟨s, _, t, hs, hrun, by decide, controlLaw hrun (by decide)⟩

/-- The deletion of a thread that was never created leaves a TCB that is not aborted, and that of
the root server changes the links of a thread that has nothing to do with it but its place in the
ready queue. -/
theorem exists_not_deleted_and_relinked :
    (∃ s a t, Reachable (fun _ _ => True) s ∧ sysThreadControl a s = .ok (true, t) ∧
      userBase ≤ a.destTid.getThreadno ∧ a.spaceTid.isNilthread ∧
      (t.tcb (getTcb a.destTid)).state ≠ .aborted) ∧
    ∃ s a t q, Reachable (fun _ _ => True) s ∧ sysThreadControl a s = .ok (true, t) ∧
      userBase ≤ a.destTid.getThreadno ∧ q ≠ getTcb a.destTid ∧
      ¬s.IpcPartner (getTcb a.destTid) q ∧ ¬s.QueuedAt (getTcb a.destTid) q ∧
      t.readyList q ≠ s.readyList q := by
  constructor
  · obtain ⟨s, t, hs, hrun, hP⟩ := exists_succeeds
      ⟨sampleTid 0, .nilthread, .nilthread, .nilthread, 0⟩ [.idle, .resume]
      (fun _ t => decide ((t.tcb (getTcb (sampleTid 0))).state ≠ .aborted)) (by decide +kernel)
    exact ⟨s, _, t, hs, hrun, by decide, rfl, of_decide_eq_true hP⟩
  · obtain ⟨s, t, hs, hrun, hP⟩ := exists_succeeds
      ⟨rootServerTid, .nilthread, .nilthread, .nilthread, 0⟩ [.idle, .resume]
      (fun s t => decide ((s.tcb (getTcb rootServerTid)).state.inIpc = false ∧
        (s.tcb (getTcb rootServerTid)).savedState.inIpc = false ∧
        (s.tcb (getTcb rootServerTid)).sendHead = none ∧
        t.readyList (getTcb sigma0Tid) ≠ s.readyList (getTcb sigma0Tid))) (by decide +kernel)
    obtain ⟨hstate, hsaved, hhead, hlinks⟩ := of_decide_eq_true hP
    refine ⟨s, _, t, getTcb sigma0Tid, hs, hrun, by decide, by decide, ?_, ?_, hlinks⟩
    · rintro (h | h)
      · rw [hstate] at h
        exact absurd h.1 nofun
      · rw [hsaved] at h
        exact absurd h.1 nofun
    · exact fun h => Reaches.ne_none h hhead

end L4Thread
