import L4Thread.Theory.Core
import L4Thread.Theory.Wp

/-!
# Unwinding

`tcb_t::unwind` breaks off the IPC of a thread. It looks for the other party in the partner field of
the thread, or in the saved one when the thread is inside a page-fault IPC. Who is really
transferring a message is in the kernel activations: the sender is inside `extended_transfer`, or
behind the blocking send out of which the receiver has selected it. Where the two agree, exactly the
two parties are told, with complementary error codes. A virtual sender, a receiver that has just
selected its sender and a sender that waits for its pager make them differ.
-/

namespace L4Thread

open TrapM Kernel

variable {s t : KState} {p q : TcbPtr} {reason : UnwindReason} {tag : MsgTag} {α : Type}

/-! ## The parties of a transfer -/

/-- The receiver of a suspended `extended_transfer`. -/
def Frame.transfersTo : Frame → Option TcbPtr
  | .transfer _ toTid _ _ => some (getTcb toTid)
  | _ => none

/-- The receiver of a suspended blocking send. -/
def Frame.blockedOn : Frame → Option TcbPtr
  | .sendBlocked toTid _ _ _ => some (getTcb toTid)
  | _ => none

/-- The kernel activation ends with the error return of an IPC. -/
def brokenOff (stack : List Frame) : Bool := stack.head? == some (.notify .ipcError)

/-- `a` is inside `extended_transfer` to `b`, or `b` has selected the message `a` blocks on. -/
def KState.Transfers (s : KState) (a b : TcbPtr) : Prop :=
  a ≠ b ∧ (s.tcb b).state = .lockedWaiting ∧
    (brokenOff (s.tcb a).stack = false ∧ (∃ f ∈ (s.tcb a).stack, f.transfersTo = some b) ∨
      (s.tcb a).state = .lockedRunning ∧ (s.tcb a).stack.head?.bind Frame.blockedOn = some b)

/-- `a` has tunnelled a page fault to `b`. -/
def KState.Tunnels (s : KState) (a b : TcbPtr) : Prop :=
  a ≠ b ∧ (s.tcb a).state = .waitingTunneledPf ∧ getTcb (s.tcb a).partner = b

/-- `a` is the sender and `b` the receiver of an ongoing transfer. -/
def KState.Sends (s : KState) (a b : TcbPtr) : Prop := s.Transfers a b ∨ s.Tunnels a b

theorem KState.Sends.ne {a b : TcbPtr} (h : s.Sends a b) : a ≠ b := by
  cases h with
  | inl h => exact h.1
  | inr h => exact h.1

/-- The error codes of the sender and of the receiver of a transfer that is broken off. -/
inductive Complementary (offset : Word) : Word → Word → Prop
  | aborted : Complementary offset (ipcSndError (errIpcAborted offset))
      (ipcRcvError (errIpcAborted offset))
  | senderTimeout : Complementary offset (ipcSndError (errIpcXferTimeoutCurrent offset))
      (ipcRcvError (errIpcXferTimeoutPartner offset))
  | receiverTimeout : Complementary offset (ipcSndError (errIpcXferTimeoutPartner offset))
      (ipcRcvError (errIpcXferTimeoutCurrent offset))

def KState.errorCode (s : KState) (p : TcbPtr) : Word := (s.utcbOf p).errorCode

/-- State, tag and error code of a thread. -/
def KState.ipcView (s : KState) (p : TcbPtr) : ThreadState × MsgTag × Word :=
  ((s.tcb p).state, s.messageTag p, s.errorCode p)

/-- From `s` to `t` the IPC of `p` is broken off for its two parties and for nobody else. -/
structure BreaksOff (p : TcbPtr) (s t : KState) : Prop where
  others : ∀ q ≠ p, ¬s.Sends p q → ¬s.Sends q p → t.ipcView q = s.ipcView q
  receiver : ∀ q, s.Sends p q → (t.tcb q).state = .running ∧
    ∃ offset, Complementary offset (t.errorCode p) (t.errorCode q)
  sender : ∀ q, s.Sends q p → (t.tcb q).state = .running ∧
    ∃ offset, Complementary offset (t.errorCode q) (t.errorCode p)

/-! ## What the fields say -/

/-- A thread in the state `st` with the partner field `partner` takes `q` for its receiver. -/
def KState.FindsReceiver (s : KState) (p : TcbPtr) (st : ThreadState) (partner : ThreadId)
    (q : TcbPtr) : Prop :=
  q = getTcb partner ∧
    (st = .lockedRunning ∧ (s.tcb q).state = .lockedWaiting ∧
        (s.tcb q).partner = (s.tcb p).myselfGlobal ∨
      st = .waitingTunneledPf)

/-- A thread in the state `st` with the partner field `partner` takes `q` for its sender. -/
def KState.FindsSender (s : KState) (st : ThreadState) (partner : ThreadId) (q : TcbPtr) : Prop :=
  q = getTcb partner ∧
    (st = .lockedWaiting ∧ (s.tcb q).state = .lockedRunning ∨
      st = .lockedRunningNested ∧ (s.tcb q).state = .waitingTunneledPf)

/-- The thread is blocked in an IPC that is nested in another one, or behind its end. -/
def Tcb.inNested (c : Tcb) : Bool :=
  c.state == .lockedRunningIpcDone ||
    (c.state.isPolling || c.state.isWaiting) && !c.savedPartner.isNilthread

/-- State and partner of the outermost IPC of a thread. -/
def Tcb.outer (c : Tcb) : ThreadState × ThreadId :=
  if c.inNested then (c.savedState, c.savedPartner) else (c.state, c.partner)

/-- The fields that `unwind` reads are true to the transfers of `p`. -/
structure KState.Faithful (s : KState) (p : TcbPtr) : Prop where
  /-- A nested IPC of `p` has no transfer of its own. -/
  single : (s.tcb p).savedPartner.isNilthread = true ∨
    (s.tcb p).state ≠ .lockedRunning ∧ (s.tcb p).state ≠ .lockedWaiting
  receiver : ∀ q, s.FindsReceiver p (s.tcb p).outer.1 (s.tcb p).outer.2 q ↔ s.Sends p q
  sender : ∀ q, s.FindsSender (s.tcb p).outer.1 (s.tcb p).outer.2 q ↔ s.Sends q p
  /-- The UTCBs of the parties are their own. -/
  own : ∀ q, q = p ∨ s.Sends p q ∨ s.Sends q p → ∀ x ≠ q, (s.tcb x).utcb ≠ (s.tcb q).utcb

/-! ## Frame conditions -/

/-- A TCB without its place in the queues, its scheduling parameters and its kernel activation. -/
@[grind] def Tcb.ipc (c : Tcb) : Tcb :=
  { c with
    queueState := .zero, sendHead := none, stack := []
    totalQuantum := 0, timesliceLength := 0, currentTimeslice := 0, absoluteTimeout := 0
    priority := 0, sensitivePrio := 0, currentMaxDelay := 0, maxDelay := 0 }

def KState.ipc (s : KState) : (TcbPtr → Tcb) × (UtcbPtr → Utcb) := (fun p => (s.tcb p).ipc, s.utcb)

abbrev KeepsIpc (x : Kernel α) : Prop := Keeps KState.ipc x

theorem keepsIpc_of_core {x : Kernel α} (h : KeepsCore x) : KeepsIpc x := by
  intro s a t hx
  have hcore := h s a t hx
  simp only [KState.core, Core.mk.injEq] at hcore
  refine Prod.ext (funext fun q => ?_) hcore.2.1
  have hq : (t.tcb q).core.ipc = (s.tcb q).core.ipc := congrArg Tcb.ipc (congrFun hcore.1 q)
  exact hq

theorem keepsIpc_modTcb {f : Tcb → Tcb} (h : ∀ c, (f c).ipc = c.ipc) : KeepsIpc (modTcb p f) := by
  refine .modify fun s => Prod.ext (funext fun q => ?_) rfl
  rcases eq_or_ne q p with rfl | hq
  · simp [KState.ipc, h]
  · simp [KState.ipc, hq]

theorem keepsIpc_dequeueSend : KeepsIpc (dequeueSend p q) := by
  unfold dequeueSend setSendQueue setSend
  refine .bind (.gets _) fun _ => .bind keeps_ofLinks fun _ => ?_
  refine .bind (.bind (keepsIpc_modTcb fun _ => rfl) fun _ => .modify fun _ => rfl) fun _ => ?_
  exact keepsIpc_modTcb fun _ => rfl

/-- Only the threads in `A` are touched. -/
structure Untouched (A : TcbPtr → Prop) (s t : KState) : Prop where
  utcb : ∀ q, (t.tcb q).utcb = (s.tcb q).utcb
  ident : ∀ q, (t.tcb q).myselfGlobal = (s.tcb q).myselfGlobal
  tcb : ∀ q, ¬A q → (t.tcb q).ipc = (s.tcb q).ipc
  contents : ∀ u, (∀ q, A q → (s.tcb q).utcb ≠ some u) → t.utcb u = s.utcb u

namespace Untouched

variable {A B : TcbPtr → Prop} {u v : KState}

theorem refl : Untouched A s s := ⟨fun _ => rfl, fun _ => rfl, fun _ _ => rfl, fun _ _ => rfl⟩

theorem trans (h : Untouched A s t) (h' : Untouched A t u) : Untouched A s u where
  utcb q := (h'.utcb q).trans (h.utcb q)
  ident q := (h'.ident q).trans (h.ident q)
  tcb q hq := (h'.tcb q hq).trans (h.tcb q hq)
  contents w hw := by
    rw [h'.contents w fun q hq => ?_, h.contents w hw]
    rw [h.utcb]
    exact hw q hq

theorem mono (hAB : ∀ q, A q → B q) (h : Untouched A s t) : Untouched B s t where
  utcb := h.utcb
  ident := h.ident
  tcb q hq := h.tcb q fun hA => hq (hAB q hA)
  contents w hw := h.contents w fun q hA => hw q (hAB q hA)

theorem of_ipc (h : t.ipc = s.ipc) : Untouched A s t := by
  have htcb : ∀ q, (t.tcb q).ipc = (s.tcb q).ipc := fun q => congrFun (congrArg Prod.fst h) q
  refine ⟨fun q => ?_, fun q => ?_, fun q _ => htcb q, fun w _ => ?_⟩
  · have hq : (t.tcb q).ipc.utcb = (s.tcb q).ipc.utcb := congrArg Tcb.utcb (htcb q)
    exact hq
  · have hq : (t.tcb q).ipc.myselfGlobal = (s.tcb q).ipc.myselfGlobal :=
      congrArg Tcb.myselfGlobal (htcb q)
    exact hq
  · exact congrFun (congrArg Prod.snd h) w

theorem state (h : Untouched A s t) (hq : ¬A q) : (t.tcb q).state = (s.tcb q).state := by
  have hst : (t.tcb q).ipc.state = (s.tcb q).ipc.state := congrArg Tcb.state (h.tcb q hq)
  exact hst

theorem partner (h : Untouched A s t) (hq : ¬A q) : (t.tcb q).partner = (s.tcb q).partner := by
  have hpt : (t.tcb q).ipc.partner = (s.tcb q).ipc.partner := congrArg Tcb.partner (h.tcb q hq)
  exact hpt

/-- A thread that is not touched, and shares its UTCB with none that is, sees nothing. -/
theorem utcbOf (h : Untouched A s t) (hown : ∀ x, A x → (s.tcb x).utcb ≠ (s.tcb q).utcb) :
    t.utcbOf q = s.utcbOf q := by
  simp only [KState.utcbOf, h.utcb q]
  cases hu : (s.tcb q).utcb with
  | none => rfl
  | some w => exact h.contents w fun x hx => hu ▸ hown x hx

theorem ipcView (h : Untouched A s t) (hq : ¬A q)
    (hown : ∀ x, A x → (s.tcb x).utcb ≠ (s.tcb q).utcb) : t.ipcView q = s.ipcView q := by
  simp only [KState.ipcView, KState.messageTag, KState.reg, KState.errorCode, h.state hq,
    h.utcbOf hown]

end Untouched

section Preserves

variable {A : TcbPtr → Prop} {u : KState}

theorem preserves_of_keepsIpc {x : Kernel α} (h : KeepsIpc x) :
    Preserves (Untouched A u) x :=
  fun s a t hI hx => hI.trans (.of_ipc (h s a t hx))

theorem untouched_modTcb {f : Tcb → Tcb} (hp : A p) (hutcb : ∀ c, (f c).utcb = c.utcb)
    (hident : ∀ c, (f c).myselfGlobal = c.myselfGlobal) :
    Preserves (Untouched A u) (modTcb p f) := by
  refine .modify fun s hI => hI.trans ⟨fun q => ?_, fun q => ?_, fun q hq => ?_, fun _ _ => rfl⟩
  · rcases eq_or_ne q p with rfl | hne
    · simp [hutcb]
    · simp [hne]
  · rcases eq_or_ne q p with rfl | hne
    · simp [hident]
    · simp [hne]
  · have hne : q ≠ p := fun h => hq (h ▸ hp)
    simp [hne]

theorem untouched_modUtcb {f : Utcb → Utcb} (hp : A p) :
    Preserves (Untouched A u) (modUtcb p f) := by
  intro s a t hI hx
  refine hI.trans ?_
  obtain ⟨w, s1, hget, hmod⟩ := bind_eq_ok.mp hx
  obtain ⟨hw, rfl⟩ : (s.tcb p).utcb = some w ∧ s = s1 := by
    have hwp : wp (fun _ => True) (getUtcb p) (fun v r => (s.tcb p).utcb = some v ∧ s = r) s :=
      wp_getUtcb.mpr ⟨fun _ => trivial, fun v hv => ⟨hv, rfl⟩⟩
    exact wp_iff_ok.mp hwp _ _ hget
  cases hmod
  refine ⟨fun _ => rfl, fun _ => rfl, fun _ _ => rfl, fun v hv => ?_⟩
  have hne : v ≠ w := fun h => hv p hp (h ▸ hw)
  simp [hne]

theorem untouched_setIpcError {err : Word} (hp : A p) :
    Preserves (Untouched A u) (setIpcError p tag err) := by
  unfold setIpcError setTag setMr setErrorCode
  exact .bind (untouched_modUtcb hp) fun _ => untouched_modUtcb hp

theorem untouched_restoreState (hp : A p) : Preserves (Untouched A u) (restoreState p) := by
  unfold restoreState restoreRegisters setErrorCode
  refine .bind (.bind (.gets _) fun _ => untouched_modUtcb hp) fun _ => ?_
  refine .bind (untouched_modTcb hp (fun _ => rfl) fun _ => rfl) fun _ => .bind (.gets _) fun _ => ?_
  exact .bind (untouched_modUtcb hp) fun _ => untouched_modTcb hp (fun _ => rfl) fun _ => rfl

theorem untouched_abortPartner {err : Word} (hp : A p) :
    Preserves (Untouched A u) (abortPartner p tag err) := by
  unfold abortPartner setErrorCode setTag setMr setState notify pushFrame
  refine .bind (untouched_modUtcb hp) fun _ => .bind (untouched_modUtcb hp) fun _ => ?_
  refine .bind (untouched_modTcb hp (fun _ => rfl) fun _ => rfl) fun _ => ?_
  refine .bind (untouched_modTcb hp (fun _ => rfl) fun _ => rfl) fun _ => ?_
  exact preserves_of_keepsIpc (keepsIpc_of_core keepsCore_enqueueReady)

end Preserves

/-! ## Error codes -/

theorem keeps_calculateErrorcodes {a b : TcbPtr} :
    Keeps (fun s => s) (calculateErrorcodes reason a b) := by
  unfold calculateErrorcodes timeLt absoluteTime
  repeat' first | with_reducible refine Keeps.bind ?_ fun _ => ?_ | split
  all_goals grind

theorem returns_calculateErrorcodes {a b : TcbPtr} :
    Returns (fun r => ∃ offset, Complementary offset r.1 r.2) (calculateErrorcodes reason a b) := by
  unfold calculateErrorcodes
  refine .bind fun c => ?_
  cases reason with
  | timeout =>
    refine .bind fun _ => .bind fun _ => .bind fun r => ?_
    cases r with
    | true => exact .pure ⟨_, .receiverTimeout⟩
    | false => exact .pure ⟨_, .senderTimeout⟩
  | abort => exact .pure ⟨_, .aborted⟩

theorem wp_calculateErrorcodes {a b : TcbPtr} {Q : Word × Word → KState → Prop}
    (h : ∀ errS errR offset, Complementary offset errS errR → Q (errS, errR) s) :
    wp (fun _ => True) (calculateErrorcodes reason a b) Q s := by
  rw [wp_iff_ok]
  intro r t hr
  obtain rfl : t = s := keeps_calculateErrorcodes s r t hr
  obtain ⟨offset, hc⟩ := returns_calculateErrorcodes t r t hr
  exact h r.1 r.2 offset hc

theorem wp_setIpcError {err : Word} :
    wp (fun _ => True) (setIpcError p tag err)
      (fun _ t => Untouched (· = p) s t ∧ t.errorCode p = err) s := by
  rw [wp_iff_ok]
  intro _ t ht
  refine ⟨untouched_setIpcError (A := (· = p)) rfl s _ t .refl ht, ?_⟩
  have hwp : wp (fun _ => True) (setIpcError p tag err) (fun _ t => t.errorCode p = err) s := by
    simp only [setIpcError, setTag, setMr, setErrorCode, wp_bind, wp_modUtcb, implies_true,
      true_and]
    intro u hu v hv
    simp [KState.errorCode, KState.utcbOf, hv]
  exact wp_iff_ok.mp hwp _ _ ht

/-- The partner is told, then the thread itself. -/
theorem wp_abortBoth {partner : TcbPtr} {err err' : Word}
    (hown : (s.tcb p).utcb ≠ (s.tcb partner).utcb) :
    wp (fun _ => True) (do abortPartner partner tag err; setIpcError p tag err')
      (fun _ t => Untouched (fun q => q = p ∨ q = partner) s t ∧
        (t.tcb partner).state = .running ∧ t.errorCode partner = err ∧ t.errorCode p = err') s := by
  have hne : partner ≠ p := fun h => hown (h ▸ rfl)
  rw [wp_bind, wp_iff_ok]
  intro _ t ht
  have htouch : Untouched (· = partner) s t :=
    untouched_abortPartner (A := (· = partner)) rfl s _ t .refl ht
  have herr : t.errorCode partner = err ∧ (t.tcb partner).state = .running := by
    have hwp : wp (fun _ => True) (abortPartner partner tag err)
        (fun _ t => t.errorCode partner = err ∧ (t.tcb partner).state = .running) s := by
      simp only [abortPartner, setErrorCode, setTag, setMr, setState, notify, pushFrame, wp_bind,
        wp_modUtcb, wp_modTcb, implies_true, true_and]
      intro u hu v hv
      refine (keepsIpc_of_core keepsCore_enqueueReady).wp fun _ r hr => ?_
      have hr' := Untouched.of_ipc (A := fun _ => False) hr
      rw [KState.errorCode, hr'.utcbOf fun _ h => h.elim, hr'.state id]
      have hvu : v = u := Option.some.inj (hv.symm.trans hu)
      simp [KState.utcbOf, hvu, hu]
    exact wp_iff_ok.mp hwp _ _ ht
  refine wp_mono wp_setIpcError fun _ r hr => ?_
  have hkeep := hr.1.utcbOf (q := partner) fun x hx => by
    rw [hx, htouch.utcb, htouch.utcb]
    exact hown
  refine ⟨(htouch.mono fun _ => .inr).trans (hr.1.mono fun _ => .inl), ?_, ?_, hr.2⟩
  · rw [hr.1.state hne, herr.2]
  · rw [KState.errorCode, hkeep, ← herr.1, KState.errorCode]

/-- The partner is told if it is engaged with the thread. -/
theorem wp_abortIf (tag : MsgTag) (err err' : Word) {r : KState} {partner : TcbPtr} {G : Prop}
    [Decidable G] (hr : Untouched (· = p) s r) (hown : G → (s.tcb p).utcb ≠ (s.tcb partner).utcb) :
    wp (fun _ => True)
      (if G then do abortPartner partner tag err; setIpcError p tag err' else setIpcError p tag err')
      (fun _ t => Untouched (fun q => q = p ∨ G ∧ q = partner) s t ∧ t.errorCode p = err' ∧
        (G → (t.tcb partner).state = .running ∧ t.errorCode partner = err)) r := by
  have hr' : Untouched (fun q => q = p ∨ G ∧ q = partner) s r := hr.mono fun _ => .inl
  split
  · rename_i hG
    have hne : (r.tcb p).utcb ≠ (r.tcb partner).utcb := by
      rw [hr.utcb, hr.utcb]
      exact hown hG
    refine wp_mono (wp_abortBoth hne) fun _ t ht => ⟨hr'.trans (ht.1.mono ?_), ht.2.2.2, fun _ => ?_⟩
    · exact fun q hq => hq.imp id fun h => ⟨hG, h⟩
    · exact ⟨ht.2.1, ht.2.2.1⟩
  · rename_i hG
    refine wp_mono wp_setIpcError fun _ t ht => ⟨?_, ht.2, fun h => absurd h hG⟩
    exact hr'.trans (ht.1.mono fun _ => .inl)

/-! ## The rounds -/

/-- One round of `unwind` at a thread in the state `st` with the partner field `partner`. -/
structure RoundOff (s t : KState) (p : TcbPtr) (st : ThreadState) (partner : ThreadId) : Prop where
  untouched : Untouched
    (fun q => q = p ∨ s.FindsReceiver p st partner q ∨ s.FindsSender st partner q) s t
  receiver : ∀ q, s.FindsReceiver p st partner q → (t.tcb q).state = .running ∧
    ∃ offset, Complementary offset (t.errorCode p) (t.errorCode q)
  sender : ∀ q, s.FindsSender st partner q → (t.tcb q).state = .running ∧
    ∃ offset, Complementary offset (t.errorCode q) (t.errorCode p)

namespace RoundOff

variable {st : ThreadState} {partner : ThreadId} {G : Prop} {errS errR offset : Word}

/-- A round that finds nobody. -/
theorem alone (h : Untouched (· = p) s t) (hr : ∀ q, ¬s.FindsReceiver p st partner q)
    (hs : ∀ q, ¬s.FindsSender st partner q) : RoundOff s t p st partner :=
  ⟨h.mono fun _ => .inl, fun q hq => absurd hq (hr q), fun q hq => absurd hq (hs q)⟩

/-- A round at a sender. -/
theorem of_sender (hG : s.FindsReceiver p st partner (getTcb partner) ↔ G)
    (hs : ∀ q, ¬s.FindsSender st partner q) (hc : Complementary offset errS errR)
    (h : Untouched (fun q => q = p ∨ G ∧ q = getTcb partner) s t ∧ t.errorCode p = errS ∧
      (G → (t.tcb (getTcb partner)).state = .running ∧ t.errorCode (getTcb partner) = errR)) :
    RoundOff s t p st partner where
  untouched := by
    refine h.1.mono fun q hq => hq.imp id fun hq => .inl ?_
    rw [hq.2, hG]
    exact hq.1
  receiver q hq := by
    have hqp := hq.1
    subst hqp
    obtain ⟨hstate, herr⟩ := h.2.2 (hG.mp hq)
    refine ⟨hstate, offset, ?_⟩
    rw [h.2.1, herr]
    exact hc
  sender q hq := absurd hq (hs q)

/-- A round at a receiver. -/
theorem of_receiver (hG : s.FindsSender st partner (getTcb partner) ↔ G)
    (hr : ∀ q, ¬s.FindsReceiver p st partner q) (hc : Complementary offset errS errR)
    (h : Untouched (fun q => q = p ∨ G ∧ q = getTcb partner) s t ∧ t.errorCode p = errR ∧
      (G → (t.tcb (getTcb partner)).state = .running ∧ t.errorCode (getTcb partner) = errS)) :
    RoundOff s t p st partner where
  untouched := by
    refine h.1.mono fun q hq => hq.imp id fun hq => .inr ?_
    rw [hq.2, hG]
    exact hq.1
  receiver q hq := absurd hq (hr q)
  sender q hq := by
    have hqp := hq.1
    subst hqp
    obtain ⟨hstate, herr⟩ := h.2.2 (hG.mp hq)
    refine ⟨hstate, offset, ?_⟩
    rw [h.2.1, herr]
    exact hc

end RoundOff

theorem wp_setRunning {E : Trap → Prop} {Q : Unit → KState → Prop}
    (h : ∀ r, Untouched (· = p) s r → r.tcb p = { s.tcb p with state := .running } → Q () r) :
    wp E (setState p .running) Q s := by
  refine wp_modTcb.mpr (h _ ?_ (by simp))
  exact untouched_modTcb (A := (· = p)) (f := fun c => { c with state := .running }) rfl
    (fun _ => rfl) (fun _ => rfl) s () _ .refl rfl

/-- What a round reads of its partner is as it was before. -/
theorem Untouched.findsReceiver_iff {r : KState} (tid : ThreadId) (h : Untouched (· = p) s r)
    (hr : r.tcb p = { s.tcb p with state := .running }) (hst : (s.tcb p).state = .lockedRunning) :
    s.FindsReceiver p .lockedRunning tid (getTcb tid) ↔
      (r.tcb (getTcb tid)).state = .lockedWaiting ∧
        (r.tcb (getTcb tid)).partner = (r.tcb p).myselfGlobal := by
  rcases eq_or_ne (getTcb tid) p with heq | hne
  · simp [KState.FindsReceiver, heq, hr, hst]
  · simp [KState.FindsReceiver, h.state hne, h.partner hne, hr]

theorem Untouched.findsSender_iff {r : KState} (tid : ThreadId) (h : Untouched (· = p) s r)
    (hr : r.tcb p = { s.tcb p with state := .running }) (hst : (s.tcb p).state = .lockedWaiting) :
    s.FindsSender .lockedWaiting tid (getTcb tid) ↔ (r.tcb (getTcb tid)).state = .lockedRunning := by
  rcases eq_or_ne (getTcb tid) p with heq | hne
  · simp [KState.FindsSender, heq, hr, hst]
  · simp [KState.FindsSender, h.state hne]

theorem Untouched.findsTunnel_iff {r : KState} (tid : ThreadId) (h : Untouched (· = p) s r)
    (hr : r.tcb p = { s.tcb p with state := .running })
    (hst : (s.tcb p).state = .lockedRunningNested) :
    s.FindsSender .lockedRunningNested tid (getTcb tid) ↔
      (r.tcb (getTcb tid)).state = .waitingTunneledPf := by
  rcases eq_or_ne (getTcb tid) p with heq | hne
  · simp [KState.FindsSender, heq, hr, hst]
  · simp [KState.FindsSender, h.state hne]

/-- The round at a thread outside nested IPCs. -/
theorem wp_unwindLoop_last {fuel : Nat} (hdone : (s.tcb p).state ≠ .lockedRunningIpcDone)
    (hsingle : (s.tcb p).savedPartner.isNilthread = true ∨
      (s.tcb p).inNested = false ∧ (s.tcb p).state ≠ .lockedRunning ∧
        (s.tcb p).state ≠ .lockedWaiting)
    (hown : ∀ q, s.FindsReceiver p (s.tcb p).state (s.tcb p).partner q ∨
      s.FindsSender (s.tcb p).state (s.tcb p).partner q → (s.tcb p).utcb ≠ (s.tcb q).utcb) :
    wp (fun _ => True) (unwindLoop p reason (fuel + 1) tag)
      (fun _ t => RoundOff s t p (s.tcb p).state (s.tcb p).partner) s := by
  simp only [unwindLoop, getState, getPartnerTcb, wp_bind, wp_readTcb, wp_pure]
  refine wp_setRunning fun r htouch hr => ?_
  rw [hr]
  cases hst : (s.tcb p).state with
  | lockedRunningIpcDone => exact absurd hst hdone
  | lockedRunning =>
    have hnil : (s.tcb p).savedPartner.isNilthread = true := by simpa [hst] using hsingle
    rw [hst] at hown
    simp +decide only [hnil, ite_true, ite_false, wp_bind]
    refine wp_calculateErrorcodes fun errS errR offset hc => ?_
    have hiff := htouch.findsReceiver_iff (s.tcb p).partner hr hst
    rw [wp_readTcb, wp_readTcb]
    refine wp_mono (wp_abortIf _ _ _ htouch fun hG => hown _ (.inl (hiff.mpr hG))) fun _ t ht => ?_
    exact .of_sender hiff (by simp [KState.FindsSender]) hc ht
  | lockedWaiting =>
    have hnil : (s.tcb p).savedPartner.isNilthread = true := by simpa [hst] using hsingle
    rw [hst] at hown
    simp +decide only [hnil, ite_true, ite_false, wp_bind]
    refine wp_calculateErrorcodes fun errS errR offset hc => ?_
    have hiff := htouch.findsSender_iff (s.tcb p).partner hr hst
    rw [wp_readTcb, wp_pure]
    refine wp_mono (wp_abortIf _ _ _ htouch fun hG => hown _ (.inr (hiff.mpr hG))) fun _ t ht => ?_
    exact .of_receiver hiff (by simp [KState.FindsReceiver]) hc ht
  | lockedRunningNested =>
    rw [hst] at hown
    simp +decide only [ite_true, ite_false, wp_bind]
    refine wp_calculateErrorcodes fun errS errR offset hc => ?_
    have hiff := htouch.findsTunnel_iff (s.tcb p).partner hr hst
    rw [wp_readTcb, wp_pure]
    refine wp_mono (wp_abortIf _ _ _ htouch fun hG => hown _ (.inr (hiff.mpr hG))) fun _ t ht => ?_
    exact .of_receiver hiff (by simp [KState.FindsReceiver]) hc ht
  | waitingTunneledPf =>
    rw [hst] at hown
    simp +decide only [ite_true, ite_false, wp_bind]
    refine wp_calculateErrorcodes fun errS errR offset hc => ?_
    have hfinds : s.FindsReceiver p .waitingTunneledPf (s.tcb p).partner (getTcb (s.tcb p).partner) :=
      ⟨rfl, .inr rfl⟩
    have habort := wp_abortIf tag.setError errR errS (G := True) htouch fun _ => hown _ (.inl hfinds)
    simp only [if_pos trivial, wp_bind] at habort
    refine wp_mono habort fun _ t ht => wp_mono ht fun _ t ht => ?_
    exact .of_sender (iff_of_true hfinds trivial) (by simp [KState.FindsSender]) hc ht
  | waitingForever | waitingTimeout =>
    have hnil : (s.tcb p).savedPartner.isNilthread = true := by
      simpa +decide [Tcb.inNested, hst] using hsingle
    simp +decide only [hnil, ite_true, ite_false]
    refine Preserves.wp (I := Untouched (· = p) s) ?_ htouch fun _ t ht => ?_
    · refine .bind (preserves_of_keepsIpc (keepsIpc_of_core keepsCore_cancelTimeout)) fun _ => ?_
      exact untouched_setIpcError rfl
    · exact .alone ht (by simp [KState.FindsReceiver]) (by simp [KState.FindsSender])
  | polling =>
    have hnil : (s.tcb p).savedPartner.isNilthread = true := by
      simpa +decide [Tcb.inNested, hst] using hsingle
    simp +decide only [hnil, ite_true, ite_false]
    refine Preserves.wp (I := Untouched (· = p) s) ?_ htouch fun _ t ht => ?_
    · refine .bind (preserves_of_keepsIpc (keepsIpc_of_core keepsCore_cancelTimeout)) fun _ => ?_
      refine .bind (preserves_of_keepsIpc keepsIpc_dequeueSend) fun _ => ?_
      exact untouched_setIpcError rfl
    · exact .alone ht (by simp [KState.FindsReceiver]) (by simp [KState.FindsSender])
  | zero | running | halted | aborted =>
    simp +decide only [ite_false]
    exact .alone htouch (by simp [KState.FindsReceiver]) (by simp [KState.FindsSender])

/-! ## Nested IPCs -/

/-- `restore_state` has been run at `p`. -/
structure Restored (p : TcbPtr) (s r : KState) : Prop where
  untouched : Untouched (· = p) s r
  state : (r.tcb p).state = (s.tcb p).savedState
  partner : (r.tcb p).partner = (s.tcb p).savedPartner
  savedPartner : (r.tcb p).savedPartner = .nilthread
  savedState : (r.tcb p).savedState = .aborted

theorem wp_restoreState_restored : wp (fun _ => True) (restoreState p) (fun _ r => Restored p s r) s := by
  rw [wp_iff_ok]
  intro _ r hr
  have htouch := untouched_restoreState (A := (· = p)) rfl s _ r .refl hr
  have hwp : wp (fun _ => True) (restoreState p) (fun _ r =>
      (r.tcb p).state = (s.tcb p).savedState ∧ (r.tcb p).partner = (s.tcb p).savedPartner ∧
        (r.tcb p).savedPartner = .nilthread ∧ (r.tcb p).savedState = .aborted) s := by
    simp only [restoreState, restoreRegisters, setErrorCode, wp_bind, wp_readTcb, wp_modUtcb,
      wp_modTcb, implies_true, true_and]
    simp
  obtain ⟨hst, hpt, hsp, hss⟩ := wp_iff_ok.mp hwp _ _ hr
  exact ⟨htouch, hst, hpt, hsp, hss⟩

/-- A computation that only takes the thread out of its queues, then `restore_state`. -/
theorem wp_leave_restore {x : Kernel Unit} {Q : Unit → KState → Prop} {r : KState}
    (hx : KeepsIpc x) (hr : Untouched (· = p) s r)
    (hp : r.tcb p = { s.tcb p with state := .running })
    (h : ∀ r, Restored p s r → Q () r) :
    wp (fun _ => True) (do x; restoreState p) Q r := by
  rw [wp_bind]
  refine hx.wp fun _ r1 hr1 => wp_mono wp_restoreState_restored fun _ r2 hr2 => h r2 ?_
  have htcb : (r1.tcb p).ipc = (r.tcb p).ipc := congrFun (congrArg Prod.fst hr1) p
  have hss : (r1.tcb p).ipc.savedState = (r.tcb p).ipc.savedState := congrArg Tcb.savedState htcb
  have hsp : (r1.tcb p).ipc.savedPartner = (r.tcb p).ipc.savedPartner :=
    congrArg Tcb.savedPartner htcb
  rw [hp] at hss hsp
  exact ⟨(hr.trans (.of_ipc hr1)).trans hr2.untouched, hr2.state.trans hss, hr2.partner.trans hsp,
    hr2.savedPartner, hr2.savedState⟩

/-- The round at a thread inside a nested IPC. -/
theorem wp_unwindLoop_nested {fuel : Nat} {Q : Unit → KState → Prop}
    (hnested : (s.tcb p).inNested = true)
    (h : ∀ r tag', Restored p s r → wp (fun _ => True) (unwindLoop p reason fuel tag') Q r) :
    wp (fun _ => True) (unwindLoop p reason (fuel + 1) tag) Q s := by
  simp only [unwindLoop, getState, getPartnerTcb, wp_bind, wp_readTcb, wp_pure]
  refine wp_setRunning fun r htouch hr => ?_
  rw [hr]
  cases hst : (s.tcb p).state with
  | lockedRunningIpcDone =>
    simp +decide only [ite_true, ite_false, wp_bind]
    have hleave := wp_leave_restore
      (Q := fun _ r => wp (fun _ => True) (unwindLoop p reason fuel tag) Q r)
      (.pure ()) htouch hr fun r hr => h r tag hr
    simpa only [wp_bind, wp_pure] using hleave
  | polling =>
    have hnil : (s.tcb p).savedPartner.isNilthread = false := by
      simpa +decide [Tcb.inNested, hst] using hnested
    simp +decide only [hnil, ite_true, ite_false, wp_bind]
    have hkeep : KeepsIpc (do cancelTimeout p; dequeueSend p (getTcb (s.tcb p).partner)) :=
      .bind (keepsIpc_of_core keepsCore_cancelTimeout) fun _ => keepsIpc_dequeueSend
    have hleave := wp_leave_restore
      (Q := fun _ r => wp (fun _ => True) (unwindLoop p reason fuel tag) Q r) hkeep htouch hr
      fun r hr => h r tag hr
    simpa only [wp_bind] using hleave
  | waitingForever | waitingTimeout =>
    have hnil : (s.tcb p).savedPartner.isNilthread = false := by
      simpa +decide [Tcb.inNested, hst] using hnested
    simp +decide only [hnil, ite_true, ite_false, wp_bind]
    have hleave := wp_leave_restore
      (Q := fun _ r => wp (fun _ => True) (unwindLoop p reason fuel .errorTag) Q r)
      (keepsIpc_of_core (keepsCore_cancelTimeout (p := p))) htouch hr
      fun r hr => h r .errorTag hr
    simpa only [wp_bind] using hleave
  | _ => simp +decide [Tcb.inNested, hst] at hnested

/-- The nested IPC left, the fields name the same threads. -/
theorem Restored.findsReceiver_iff {r : KState} {st : ThreadState} {tid : ThreadId}
    (h : Restored p s r) (hnested : (s.tcb p).inNested = true) (hst : (r.tcb p).state = st) :
    r.FindsReceiver p st tid q ↔ s.FindsReceiver p st tid q := by
  rcases eq_or_ne q p with rfl | hne
  · simp only [KState.FindsReceiver, hst]
    cases hs : (s.tcb q).state <;> simp_all +decide [Tcb.inNested]
  · simp only [KState.FindsReceiver, h.untouched.state hne, h.untouched.partner hne,
      h.untouched.ident]

theorem Restored.findsSender_iff {r : KState} {st : ThreadState} {tid : ThreadId}
    (h : Restored p s r) (hnested : (s.tcb p).inNested = true) (hst : (r.tcb p).state = st) :
    r.FindsSender st tid q ↔ s.FindsSender st tid q := by
  rcases eq_or_ne q p with rfl | hne
  · simp only [KState.FindsSender, hst]
    cases hs : (s.tcb q).state <;> simp_all +decide [Tcb.inNested]
  · simp only [KState.FindsSender, h.untouched.state hne]

/-- A round at a thread that was left by a nested IPC. -/
theorem Restored.roundOff {r : KState} {st : ThreadState} {tid : ThreadId} (h : Restored p s r)
    (hnested : (s.tcb p).inNested = true) (hst : (r.tcb p).state = st)
    (ht : RoundOff r t p st tid) : RoundOff s t p st tid where
  untouched := by
    refine (h.untouched.mono fun _ => .inl).trans (ht.untouched.mono fun q hq => ?_)
    rwa [h.findsReceiver_iff hnested hst, h.findsSender_iff hnested hst] at hq
  receiver q hq := ht.receiver q ((h.findsReceiver_iff hnested hst).mpr hq)
  sender q hq := ht.sender q ((h.findsSender_iff hnested hst).mpr hq)

theorem Tcb.not_done_of_inNested {c : Tcb} (h : c.inNested = false) :
    c.state ≠ .lockedRunningIpcDone := by
  intro hst
  simp [Tcb.inNested, hst] at h

theorem KState.Faithful.findsOwn (h : s.Faithful p)
    (hq : s.FindsReceiver p (s.tcb p).outer.1 (s.tcb p).outer.2 q ∨
      s.FindsSender (s.tcb p).outer.1 (s.tcb p).outer.2 q) : (s.tcb p).utcb ≠ (s.tcb q).utcb := by
  rw [h.receiver, h.sender] at hq
  refine h.own q (.inr hq) p ?_
  cases hq with
  | inl hq => exact hq.ne
  | inr hq => exact hq.ne.symm

/-- All rounds of `unwind` together. -/
theorem wp_unwindLoop (h : s.Faithful p) :
    wp (fun _ => True) (unwindLoop p reason 3 tag)
      (fun _ t => RoundOff s t p (s.tcb p).outer.1 (s.tcb p).outer.2) s := by
  have hown := fun q => h.findsOwn (q := q)
  cases hnested : (s.tcb p).inNested with
  | false =>
    have houter : (s.tcb p).outer = ((s.tcb p).state, (s.tcb p).partner) := by
      simp [Tcb.outer, hnested]
    rw [houter] at hown ⊢
    refine wp_unwindLoop_last (Tcb.not_done_of_inNested hnested) ?_ hown
    exact h.single.imp id fun hst => ⟨hnested, hst⟩
  | true =>
    have houter : (s.tcb p).outer = ((s.tcb p).savedState, (s.tcb p).savedPartner) := by
      simp [Tcb.outer, hnested]
    rw [houter] at hown ⊢
    refine wp_unwindLoop_nested hnested fun r tag' hr => ?_
    by_cases hdone : (s.tcb p).savedState = .lockedRunningIpcDone
    · -- The saved state of a saved state is `aborted`: the third round finds nobody.
      have hnested' : (r.tcb p).inNested = true := by simp [Tcb.inNested, hr.state, hdone]
      refine wp_unwindLoop_nested hnested' fun r' tag'' hr' => ?_
      have hst : (r'.tcb p).state = .aborted := hr'.state.trans hr.savedState
      have hnone : ∀ q, ¬r'.FindsReceiver p (r'.tcb p).state (r'.tcb p).partner q ∧
          ¬r'.FindsSender (r'.tcb p).state (r'.tcb p).partner q := by
        simp [hst, KState.FindsReceiver, KState.FindsSender]
      refine wp_mono (wp_unwindLoop_last (by simp [hst]) (.inl ?_) fun q hq => ?_) fun _ t ht => ?_
      · rw [hr'.savedPartner]
        rfl
      · exact absurd hq (not_or.mpr (hnone q))
      · rw [hdone]
        refine .alone ?_ (by simp [KState.FindsReceiver]) (by simp [KState.FindsSender])
        refine (hr.untouched.trans hr'.untouched).trans (ht.untouched.mono fun q hq => ?_)
        exact hq.resolve_right (not_or.mpr (hnone q))
    · have hst := hr.state
      have hpt := hr.partner
      have hlast : wp (fun _ => True) (unwindLoop p reason 2 tag')
          (fun _ t => RoundOff r t p (r.tcb p).state (r.tcb p).partner) r := by
        refine wp_unwindLoop_last (hst ▸ hdone) (.inl ?_) fun q hq => ?_
        · rw [hr.savedPartner]
          rfl
        · rw [hr.findsReceiver_iff hnested rfl, hr.findsSender_iff hnested rfl, hst, hpt] at hq
          rw [hr.untouched.utcb, hr.untouched.utcb]
          exact hown q hq
      rw [hst, hpt] at hlast
      exact wp_mono hlast fun _ t ht => hr.roundOff hnested hst ht

theorem RoundOff.breaksOff (h : s.Faithful p)
    (ht : RoundOff s t p (s.tcb p).outer.1 (s.tcb p).outer.2) : BreaksOff p s t where
  others q hq hr hs := by
    have hA : ∀ x, (x = p ∨ s.FindsReceiver p (s.tcb p).outer.1 (s.tcb p).outer.2 x ∨
        s.FindsSender (s.tcb p).outer.1 (s.tcb p).outer.2 x) ↔
        (x = p ∨ s.Sends p x ∨ s.Sends x p) := fun x => by rw [h.receiver, h.sender]
    have hnot : ¬(q = p ∨ s.Sends p q ∨ s.Sends q p) := by simp [hq, hr, hs]
    refine ht.untouched.ipcView (fun hq => hnot ((hA q).mp hq)) fun x hx => ?_
    have hx' := (hA x).mp hx
    have hne : q ≠ x := fun hqx => hnot (hqx ▸ hx')
    exact (h.own x hx' q hne).symm
  receiver q hq := ht.receiver q ((h.receiver q).mpr hq)
  sender q hq := ht.sender q ((h.sender q).mpr hq)

abbrev KeepsCurrent (x : Kernel α) : Prop := Keeps KState.currentTcb x

@[grind ←] theorem keepsCurrent_modTcb {f : Tcb → Tcb} : KeepsCurrent (modTcb p f) :=
  .modify fun _ => rfl

@[grind ←] theorem keepsCurrent_modUtcb {f : Utcb → Utcb} : KeepsCurrent (modUtcb p f) :=
  .bind keeps_getUtcb fun _ => .modify fun _ => rfl

theorem keepsCurrent_of_core {x : Kernel α} (h : KeepsCore x) : KeepsCurrent x :=
  fun s a t hx => congrArg Core.currentTcb (h s a t hx)

@[grind ←] theorem keepsCurrent_cancelTimeout : KeepsCurrent (cancelTimeout p) :=
  keepsCurrent_of_core keepsCore_cancelTimeout

@[grind ←] theorem keepsCurrent_dequeueSend : KeepsCurrent (dequeueSend p q) := by
  unfold dequeueSend setSendQueue setSend
  refine .bind (.gets _) fun _ => .bind keeps_ofLinks fun _ => ?_
  exact .bind (.bind keepsCurrent_modTcb fun _ => .modify fun _ => rfl) fun _ => keepsCurrent_modTcb

@[grind ←] theorem keepsCurrent_restoreState : KeepsCurrent (restoreState p) := by
  unfold restoreState restoreRegisters setErrorCode
  grind

@[grind ←] theorem keepsCurrent_abortPartner {err : Word} :
    KeepsCurrent (abortPartner p tag err) := by
  unfold abortPartner setErrorCode setTag setMr setState notify pushFrame
  have hready : KeepsCurrent (enqueueReady p false) := keepsCurrent_of_core keepsCore_enqueueReady
  grind

@[grind ←] theorem keepsCurrent_calculateErrorcodes :
    KeepsCurrent (calculateErrorcodes reason p q) :=
  keeps_calculateErrorcodes.comp KState.currentTcb

@[grind ←] theorem keepsCurrent_setIpcError {err : Word} :
    KeepsCurrent (setIpcError p tag err) := by
  unfold setIpcError setTag setMr setErrorCode
  grind

theorem keepsCurrent_unwindLoop (n : Nat) :
    ∀ tag, KeepsCurrent (unwindLoop p reason n tag) := by
  induction n with
  | zero => exact fun _ => .trap _
  | succ n ih =>
    intro tag
    unfold unwindLoop getState setState getPartnerTcb setTag setMr setErrorCode
    dsimp only
    repeat' first | with_reducible refine Keeps.bind ?_ fun _ => ?_ | split
    all_goals grind

theorem keepsCurrent_unwind : KeepsCurrent (unwind p reason) := by
  unfold unwind getTag getMr
  refine .bind ?_ fun _ => keepsCurrent_unwindLoop 3 _
  exact .bind (.bind keeps_readUtcb fun _ => .pure _) fun _ => .pure _

/-! ## Runs -/

instance (s : KState) (a b : TcbPtr) : Decidable (s.Transfers a b) :=
  inferInstanceAs (Decidable (_ ∧ _ ∧ _))

/-- A map item for the receiver, sent in the name of another thread. -/
def propagatedMessage : Utcb :=
  { Utcb.zero with
    virtualSender := sampleTid 0
    mr := fun i =>
      if i = 0 then ((MsgTag.tag 2 0 0).setPropagated true).raw else if i = 1 then 8 else 0 }

/-- A thread inside a transfer to another one. -/
def KState.transferring : KState :=
  let s := KState.zero .sample
  { s with
    tcb := fun p =>
      if p = getTcb (sampleTid 0) then
        { Tcb.zero with
          myselfGlobal := sampleTid 0, utcb := some (.user 0), state := .lockedRunning
          partner := sampleTid 1
          stack := [.transfer ⟨.tag 2 0 0, 1, 2, 0, false, 1, .items⟩ (sampleTid 1) .nilthread
            .never] }
      else if p = getTcb (sampleTid 1) then
        { Tcb.zero with
          myselfGlobal := sampleTid 1, utcb := some (.user 1024), state := .lockedWaiting
          partner := sampleTid 0 }
      else s.tcb p
    utcb := fun _ => .zero }

theorem transferring_cases (q : TcbPtr) :
    q = getTcb (sampleTid 0) ∨ q = getTcb (sampleTid 1) ∨
      (KState.transferring.tcb q).state = .zero ∧ (KState.transferring.tcb q).utcb = none := by
  by_cases h0 : q = getTcb (sampleTid 0)
  · exact .inl h0
  · by_cases h1 : q = getTcb (sampleTid 1)
    · exact .inr (.inl h1)
    · refine .inr (.inr ?_)
      simp only [KState.transferring, h0, h1, if_false]
      exact ⟨rfl, rfl⟩

theorem transferring_sends {a b : TcbPtr} (h : KState.transferring.Sends a b) :
    b = getTcb (sampleTid 1) := by
  cases h with
  | inl h =>
    obtain rfl | rfl | hb := transferring_cases b
    · exact absurd h.2.1 (by decide)
    · rfl
    · exact absurd (hb.1.symm.trans h.2.1) (by decide)
  | inr h =>
    obtain rfl | rfl | ha := transferring_cases a
    · exact absurd h.2.1 (by decide)
    · exact absurd h.2.1 (by decide)
    · exact absurd (ha.1.symm.trans h.2.1) (by decide)

theorem faithful_transferring : KState.transferring.Faithful (getTcb (sampleTid 0)) := by
  have hsends : KState.transferring.Sends (getTcb (sampleTid 0)) (getTcb (sampleTid 1)) :=
    .inl (by decide)
  have hown : ∀ x, x ≠ getTcb (sampleTid 0) → (KState.transferring.tcb x).utcb ≠ some (.user 0) := by
    intro x hx
    obtain rfl | rfl | hx' := transferring_cases x
    · exact absurd rfl hx
    · decide
    · rw [hx'.2]
      exact nofun
  have hown' : ∀ x, x ≠ getTcb (sampleTid 1) →
      (KState.transferring.tcb x).utcb ≠ some (.user 1024) := by
    intro x hx
    obtain rfl | rfl | hx' := transferring_cases x
    · decide
    · exact absurd rfl hx
    · rw [hx'.2]
      exact nofun
  refine ⟨.inl (by decide), fun q => ⟨fun h => ?_, fun h => ?_⟩, fun q => ⟨fun h => ?_, fun h => ?_⟩,
    fun q hq => ?_⟩
  · rw [h.1]
    exact hsends
  · rw [transferring_sends h]
    exact ⟨by decide, .inl (by decide)⟩
  · obtain ⟨-, ⟨h, -⟩ | ⟨h, -⟩⟩ := h <;> exact absurd h (by decide)
  · exact absurd (transferring_sends h) (by decide)
  · obtain rfl | hq | hq := hq
    · exact hown
    · rw [transferring_sends hq]
      exact hown'
    · exact absurd (transferring_sends hq) (by decide)

end L4Thread
