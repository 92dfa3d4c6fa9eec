import L4Thread.Theory.Core
import L4Thread.Theory.Wp

/-!
# Transparency of page faults

The IPC that the kernel sends on a page fault uses the message registers of the faulting thread. The
first three of them, the acceptor, the partner, the state and the error code are saved before and
restored after it. The reply of the pager is delivered by the general transfer, which writes every
register of the message: the registers from the fourth on are lost.
-/

namespace L4Thread

open TrapM Kernel

variable {s t : KState} {α : Type} {x : Kernel α} {c p q : TcbPtr}

/-! ## The registers of the faulting thread -/

/-- What a TCB keeps of its thread during a nested IPC. -/
@[grind] def Tcb.saved (c : Tcb) : Option UtcbPtr × (Fin 3 → Word) × Word × Word × ThreadId ×
    ThreadState :=
  (c.utcb, c.ipcCopy.savedMr, c.ipcCopy.savedBr0, c.ipcCopy.savedError, c.savedPartner,
    c.savedState)

/-- The acceptor of the thread in `p`. -/
def KState.acceptor (s : KState) (p : TcbPtr) : Acceptor := ⟨(s.utcbOf p).br 0⟩

/-- The saved part of a thread, its acceptor, and its message registers from the fourth on. -/
structure Registers where
  saved : Option UtcbPtr × (Fin 3 → Word) × Word × Word × ThreadId × ThreadState
  acceptor : Acceptor
  upper : Nat → Word

def KState.regs (c : TcbPtr) (s : KState) : Registers :=
  ⟨(s.tcb c).saved, s.acceptor c, fun i => s.reg c (i + 3)⟩

abbrev KeepsRegs (c : TcbPtr) {α : Type} (x : Kernel α) : Prop := Keeps (KState.regs c) x

/-- What `regs` is made of. -/
theorem KState.regs_congr (htcb : (t.tcb c).saved = (s.tcb c).saved) (hutcb : t.utcb = s.utcb) :
    t.regs c = s.regs c := by
  have hptr : (t.tcb c).utcb = (s.tcb c).utcb := congrArg Prod.fst htcb
  simp only [KState.regs, KState.acceptor, KState.reg, KState.utcbOf, htcb, hptr, hutcb]

@[grind ←] theorem keepsRegs_modTcb {f : Tcb → Tcb} (h : ∀ d, (f d).saved = d.saved) :
    KeepsRegs c (modTcb p f) := by
  refine .modify fun s => KState.regs_congr ?_ rfl
  rcases eq_or_ne c p with rfl | hne
  · simp [h]
  · simp [hne]

@[grind ←] theorem keepsRegs_modUtcb {f : Utcb → Utcb} (hbr : ∀ u, (f u).br 0 = u.br 0)
    (hmr : ∀ u i, (f u).mr (i + 3) = u.mr (i + 3)) : KeepsRegs c (modUtcb p f) := by
  refine .bind keeps_getUtcb fun v => .modify fun s => ?_
  simp only [KState.regs, KState.acceptor, KState.reg, KState.utcbOf]
  cases hu : (s.tcb c).utcb with
  | none => rfl
  | some u =>
    rcases eq_or_ne u v with rfl | hne
    · simp [hbr, hmr]
    · simp [hne]

theorem keepsRegs_of_core (h : KeepsCore x) : KeepsRegs c x := by
  intro s a t hx
  have hcore := h s a t hx
  simp only [KState.core, Core.mk.injEq] at hcore
  refine KState.regs_congr ?_ hcore.2.1
  have hc : (t.tcb c).core.saved = (s.tcb c).core.saved := congrArg Tcb.saved (congrFun hcore.1 c)
  simpa [Tcb.core, Tcb.saved] using hc

@[grind ←] theorem keepsRegs_enqueueReady {b : Bool} : KeepsRegs c (enqueueReady p b) :=
  keepsRegs_of_core keepsCore_enqueueReady

@[grind ←] theorem keepsRegs_setTimeout {time : Time} : KeepsRegs c (setTimeout p time) :=
  keepsRegs_of_core keepsCore_setTimeout

@[grind ←] theorem keepsRegs_cancelTimeout : KeepsRegs c (cancelTimeout p) :=
  keepsRegs_of_core keepsCore_cancelTimeout

@[grind ←] theorem keepsRegs_checkDispatchThread : KeepsRegs c (checkDispatchThread p q) :=
  keepsRegs_of_core keepsCore_checkDispatchThread

@[grind ←] theorem keepsRegs_switchTo : KeepsRegs c (switchTo p) := .modify fun _ => rfl

@[grind ←] theorem keepsRegs_setSendLinks {l : TcbPtr → Ring.Link TcbPtr} :
    KeepsRegs c (setSendLinks l) :=
  .modify fun _ => rfl

@[grind ←] theorem keepsRegs_setTag {tag : MsgTag} : KeepsRegs c (setTag p tag) := by
  unfold setTag setMr
  refine keepsRegs_modUtcb (fun _ => rfl) fun u i => ?_
  simp

@[grind ←] theorem keepsRegs_setErrorCode {err : Word} : KeepsRegs c (setErrorCode p err) :=
  keepsRegs_modUtcb (fun _ => rfl) fun _ _ => rfl

/-! ## The parts of an IPC that write no register -/

section Ipc

variable {toTid fromTid : ThreadId} {timeout : Timeout} {o : Option TcbPtr}

@[grind ←] theorem keepsRegs_enqueueSend : KeepsRegs c (enqueueSend p q) := by
  unfold enqueueSend setSendQueue
  repeat' with_reducible refine Keeps.bind ?_ fun _ => ?_
  all_goals grind

@[grind ←] theorem keepsRegs_receivePartner : KeepsRegs c (receivePartner p fromTid) := by
  unfold receivePartner
  grind

@[grind ←] theorem keepsRegs_receiveBlocking :
    KeepsRegs c (receiveBlocking p o fromTid timeout) := by
  unfold receiveBlocking
  repeat' first | with_reducible refine Keeps.bind ?_ fun _ => ?_ | split
  all_goals grind

@[grind ←] theorem keepsRegs_receiveFrom : KeepsRegs c (receiveFrom p o q) := by
  unfold receiveFrom
  repeat' first | with_reducible refine Keeps.bind ?_ fun _ => ?_ | split
  all_goals grind

@[grind ←] theorem keepsRegs_ipcReceive : KeepsRegs c (ipcReceive p o toTid fromTid timeout) := by
  unfold ipcReceive
  repeat' first | with_reducible refine Keeps.bind ?_ fun _ => ?_ | split
  all_goals grind

@[grind ←] theorem keepsRegs_sendOnly : KeepsRegs c (sendOnly p q) := by
  unfold sendOnly
  repeat' first | with_reducible refine Keeps.bind ?_ fun _ => ?_ | split
  all_goals grind

@[grind ←] theorem keepsRegs_sendFinished :
    KeepsRegs c (sendFinished p o toTid fromTid timeout) := by
  unfold sendFinished
  repeat' first | with_reducible refine Keeps.bind ?_ fun _ => ?_ | split
  all_goals grind

@[grind ←] theorem keepsRegs_extendedTransfer {tag : MsgTag} :
    KeepsRegs c (extendedTransfer p q tag) := by
  unfold extendedTransfer
  dsimp only
  split
  · exact .trap _
  · repeat' with_reducible refine Keeps.bind ?_ fun _ => ?_
    all_goals grind

@[grind ←] theorem keepsRegs_sendBlocking {senderId : ThreadId} :
    KeepsRegs c (sendBlocking p q toTid fromTid timeout senderId) := by
  unfold sendBlocking
  grind

@[grind ←] theorem keepsRegs_ipcSenderId : KeepsRegs c (ipcSenderId p q) := by
  unfold ipcSenderId
  repeat' first | with_reducible refine Keeps.bind ?_ fun _ => ?_ | split
  all_goals grind

@[grind ←] theorem keepsRegs_messageOverflow {y : Xfer} : KeepsRegs c (messageOverflow p q y) := by
  unfold messageOverflow
  grind

@[grind ←] theorem keepsRegs_transferDone {y : Xfer} : KeepsRegs c (transferDone p y) := by
  unfold transferDone
  grind

end Ipc

/-! ## Delivery of a message -/

/-- From `s` to `t` the message registers from `lo` to `hi` are copied from `src` to `dst`. The
first three registers of `dst` are left open. -/
structure Delivered (src dst : TcbPtr) (lo hi : Nat) (s t : KState) : Prop where
  sender : t.regs src = s.regs src
  saved : (t.tcb dst).saved = (s.tcb dst).saved
  acceptor : t.acceptor dst = s.acceptor dst
  mr : ∀ i, 3 ≤ i → t.reg dst i = if lo ≤ i ∧ i < hi then s.reg src i else s.reg dst i

namespace Delivered

variable {src dst : TcbPtr} {lo mid hi : Nat} {u : KState}

theorem of_regs (hsrc : t.regs src = s.regs src) (hdst : t.regs dst = s.regs dst) :
    Delivered src dst lo lo s t := by
  have hd := hdst
  simp only [KState.regs, Registers.mk.injEq] at hd
  refine ⟨hsrc, hd.1, hd.2.1, fun i hi => ?_⟩
  have hmr := congrFun hd.2.2 (i - 3)
  rw [if_neg (by omega)]
  rwa [show i - 3 + 3 = i from Nat.sub_add_cancel hi] at hmr

theorem of_keeps (hsrc : KeepsRegs src x) (hdst : KeepsRegs dst x) {a : α} (hx : x s = .ok (a, t)) :
    Delivered src dst lo lo s t :=
  of_regs (hsrc s a t hx) (hdst s a t hx)

theorem reg_sender (h : Delivered src dst lo hi s t) {i : Nat} (hi : 3 ≤ i) :
    t.reg src i = s.reg src i := by
  have hs := h.sender
  simp only [KState.regs, Registers.mk.injEq] at hs
  have hmr := congrFun hs.2.2 (i - 3)
  rwa [show i - 3 + 3 = i from Nat.sub_add_cancel hi] at hmr

theorem trans (h₁ : Delivered src dst lo mid s t) (h₂ : Delivered src dst mid hi t u)
    (hlo : lo ≤ mid) (hhi : mid ≤ hi) : Delivered src dst lo hi s u := by
  refine ⟨h₂.sender.trans h₁.sender, h₂.saved.trans h₁.saved, h₂.acceptor.trans h₁.acceptor,
    fun i hi3 => ?_⟩
  rw [h₂.mr i hi3, h₁.mr i hi3, h₁.reg_sender hi3]
  rcases Nat.lt_or_ge i mid with hlt | hge
  · rw [if_neg (by omega)]
    exact if_congr (by omega) rfl rfl
  · rcases Nat.lt_or_ge i hi with hlt | hge'
    · rw [if_pos ⟨hge, hlt⟩, if_pos (by omega)]
    · rw [if_neg (by omega), if_neg (by omega), if_neg (by omega)]

end Delivered

/-- Registers of `src` written to the UTCB of `dst`. Where the two threads share a UTCB, nothing
changes. -/
theorem delivered_write {src dst : TcbPtr} {lo hi : Nat} {u v : UtcbPtr} {w : Utcb}
    (hu : (s.tcb src).utcb = some u) (hv : (s.tcb dst).utcb = some v) (hbr : w.br = (s.utcb v).br)
    (hmr : ∀ i, w.mr i = if lo ≤ i ∧ i < hi then (s.utcb u).mr i else (s.utcb v).mr i) :
    Delivered src dst lo hi s { s with utcb := Function.update s.utcb v w } := by
  refine ⟨?_, rfl, ?_, fun i _ => ?_⟩
  · simp only [KState.regs, KState.acceptor, KState.reg, KState.utcbOf, hu]
    rcases eq_or_ne u v with rfl | hne
    · simp [hbr, hmr]
    · simp [hne]
  · simp [KState.acceptor, KState.utcbOf, hv, hbr]
  · simp [KState.reg, KState.utcbOf, hu, hv, hmr]

theorem wp_copyMr_delivered {src dst : TcbPtr} {i : Nat} :
    wp (fun _ => True) (copyMr dst src i) (fun _ t => Delivered src dst i (i + 1) s t) s := by
  simp only [copyMr, getMr, setMr, wp_bind, wp_readUtcb, wp_pure, wp_modUtcb, implies_true,
    true_and]
  intro u hu v hv
  refine delivered_write hu hv rfl fun j => ?_
  rcases eq_or_ne j i with rfl | hne
  · simp
  · rw [if_neg (by omega)]
    simp [hne]

theorem wp_copyMrs_delivered {src dst : TcbPtr} {start count : Nat} :
    wp (fun _ => True) (copyMrs src dst start count)
      (fun _ t => Delivered src dst start (start + count) s t) s := by
  simp only [copyMrs, wp_bind, wp_readUtcb, wp_modUtcb, implies_true, true_and]
  intro u hu v hv
  exact delivered_write hu hv rfl fun j => rfl

/-! ## The reply of the pager -/

section Reply

variable {src dst : TcbPtr} {y y' : Xfer} {toTid fromTid senderId : ThreadId} {timeout : Timeout}

/-- A transfer at its item loop to a receiver that accepts pages but no strings. -/
structure ItemsOnly (dst : TcbPtr) (y : Xfer) (s : KState) : Prop where
  point : y.point = .items
  strings : y.acceptStrings = false
  window : (s.acceptor dst).getRcvWindow.isNilFpage = false

theorem wp_getBr_zero {Q : Word → KState → Prop} (h : Q (s.acceptor p).raw s) :
    wp (fun _ => True) (getBr p 0) Q s := by
  simp only [getBr, wp_bind, wp_readUtcb, wp_pure, implies_true, true_and]
  intro u hu
  simpa only [KState.acceptor, KState.utcbOf_eq hu] using h

theorem returns_messageOverflow :
    Returns (fun r => ∃ tag : MsgTag, r = .done tag ∧ tag.isError = true)
      (messageOverflow src dst y) := by
  unfold messageOverflow
  refine .bind fun _ => .bind fun _ => .bind fun _ => .pure ⟨_, rfl, ?_⟩
  simp [MsgTag.setError, MsgTag.isError]

theorem returns_transferDone : Returns (fun r => r = .done y.msgtag) (transferDone src y) := by
  unfold transferDone
  exact .bind fun _ => .bind fun _ => .pure rfl

/-- What an iteration of the item loop leads to: two more registers, the end, or an error. -/
def ItemResult (src dst : TcbPtr) (y : Xfer) (s : KState) (r : XferResult) (t : KState) : Prop :=
  match r with
  | .more y' => y.srcIdx < y.totalMrs ∧ y' = { y with srcIdx := y.srcIdx + 2 } ∧
      Delivered src dst y.srcIdx (y.srcIdx + 2) s t
  | .done tag => tag.isError = false →
      y.totalMrs ≤ y.srcIdx ∧ Delivered src dst y.srcIdx y.srcIdx s t

theorem itemResult_messageOverflow {u : KState} :
    wp (fun _ => True) (messageOverflow src dst y) (ItemResult src dst y s) u := by
  refine returns_messageOverflow.wp ?_
  rintro _ t ⟨tag, rfl, herr⟩ hnot
  rw [herr] at hnot
  cases hnot

theorem wp_transferItem (h : ItemsOnly dst y s) :
    wp (fun _ => True) (transferItem src dst y) (ItemResult src dst y s) s := by
  rw [transferItem, wp_ite]
  split
  · rename_i hlt
    simp only [getMr, wp_bind, wp_readUtcb, wp_pure, implies_true, true_and, wp_ite]
    intro u hu
    split
    · -- a map or grant item: both words are copied
      refine wp_getBr_zero ?_
      rw [if_neg (by simp [h.window])]
      refine wp_mono wp_copyMr_delivered fun _ a ha => ?_
      refine wp_mono wp_copyMr_delivered fun _ b hb => ⟨hlt, rfl, ?_⟩
      exact ha.trans hb (Nat.le_succ _) (Nat.le_succ _)
    · split
      · -- a string item overflows, the receiver accepts none
        rw [stringItem, wp_bind]
        refine wp_mono wp_copyMr_delivered fun _ a _ => ?_
        rw [if_pos (by simp [h.strings])]
        exact itemResult_messageOverflow
      · exact itemResult_messageOverflow
  · rename_i hge
    refine wp_iff_ok.mpr fun r t hr => ?_
    obtain rfl := returns_transferDone s r t hr
    exact fun _ => ⟨Nat.le_of_not_lt hge,
      .of_keeps keepsRegs_transferDone keepsRegs_transferDone hr⟩

/-- The typed part of a message from `src` to `dst`, to its end without an error. Between two
iterations other threads may run, but leave the registers of the two alone. -/
inductive Transfer (src dst : TcbPtr) (toTid fromTid : ThreadId) (timeout : Timeout) :
    Xfer → KState → KState → Prop
  | more {y y' : Xfer} {s a b t : KState} : transferStep src dst y s = .ok (.more y', a) →
    b.regs src = a.regs src → b.regs dst = a.regs dst →
    Transfer src dst toTid fromTid timeout y' b t → Transfer src dst toTid fromTid timeout y s t
  | done {y : Xfer} {tag : MsgTag} {s a t : KState} :
    transferStep src dst y s = .ok (.done tag, a) → tag.isError = false →
    (do setTag dst tag; sendFinished src (some dst) toTid fromTid timeout) a = .ok ((), t) →
    Transfer src dst toTid fromTid timeout y s t

theorem Transfer.delivered (h : Transfer src dst toTid fromTid timeout y s t)
    (hy : ItemsOnly dst y s) (hidx : y.srcIdx ≤ y.totalMrs + 1) :
    Delivered src dst y.srcIdx (y.srcIdx + 2 * ((y.totalMrs + 1 - y.srcIdx) / 2)) s t := by
  induction h with
  | @more y y' s a b t hstep hsrc hdst _ ih =>
    rw [transferStep, hy.point] at hstep
    obtain ⟨hlt, rfl, hd⟩ := wp_ok (wp_transferItem hy) hstep
    have hb : Delivered src dst y.srcIdx (y.srcIdx + 2) s b :=
      hd.trans (.of_regs hsrc hdst) (Nat.le_add_right _ _) le_rfl
    have hacc : b.acceptor dst = s.acceptor dst := hb.acceptor
    have hrest := ih ⟨hy.point, hy.strings, by rw [hacc]; exact hy.window⟩ (by dsimp only; omega)
    dsimp only at hrest
    have hend : y.srcIdx + 2 + 2 * ((y.totalMrs + 1 - (y.srcIdx + 2)) / 2) =
        y.srcIdx + 2 * ((y.totalMrs + 1 - y.srcIdx) / 2) := by omega
    rw [hend] at hrest
    exact hb.trans hrest (by omega) (by omega)
  | @done y tag s a t hstep herr hfin =>
    rw [transferStep, hy.point] at hstep
    obtain ⟨hge, hd⟩ := wp_ok (wp_transferItem hy) hstep herr
    have hend : y.srcIdx + 2 * ((y.totalMrs + 1 - y.srcIdx) / 2) = y.srcIdx := by omega
    rw [hend]
    have hk : ∀ c, KeepsRegs c (do setTag dst tag; sendFinished src (some dst) toTid fromTid timeout) :=
      fun c => .bind keepsRegs_setTag fun _ => keepsRegs_sendFinished
    exact hd.trans (.of_keeps (hk src) (hk dst) hfin) le_rfl le_rfl

/-- The delivery of a message from `src` to `dst`, to its end without an error. -/
inductive Reply (src dst : TcbPtr) (toTid fromTid senderId : ThreadId) (timeout : Timeout) :
    KState → KState → Prop
  | untyped {s t : KState} : (s.messageTag src).getTyped = 0 →
    ipcTransfer src dst toTid fromTid timeout senderId s = .ok ((), t) →
    Reply src dst toTid fromTid senderId timeout s t
  | typed {y : Xfer} {rest : List Frame} {s a b t : KState} : (s.messageTag src).getTyped ≠ 0 →
    ipcTransfer src dst toTid fromTid timeout senderId s = .ok ((), a) →
    (a.tcb src).stack = .transfer y toTid fromTid timeout :: rest →
    b.regs src = a.regs src → b.regs dst = a.regs dst →
    Transfer src dst toTid fromTid timeout y b t →
    Reply src dst toTid fromTid senderId timeout s t

theorem MsgTag.getUntyped_clearReceiveFlags (tag : MsgTag) :
    tag.clearReceiveFlags.getUntyped = tag.getUntyped := by
  have hfield : ∀ t : MsgTag, t.getUntyped = (t.raw.extractLsb' 0 6).toNat := fun t => by
    simp [MsgTag.getUntyped]
  rw [hfield, hfield, MsgTag.clearReceiveFlags, BitVec.extractLsb'_and,
    show (~~~(0xe000 : Word)).extractLsb' 0 6 = BitVec.allOnes 6 by decide, BitVec.and_allOnes]

theorem MsgTag.getTyped_clearReceiveFlags (tag : MsgTag) :
    tag.clearReceiveFlags.getTyped = tag.getTyped := by
  have hfield : ∀ t : MsgTag, t.getTyped = (t.raw.extractLsb' 6 6).toNat := fun t => by
    simp [MsgTag.getTyped, Nat.shiftRight_eq_div_pow]
  rw [hfield, hfield, MsgTag.clearReceiveFlags, BitVec.extractLsb'_and,
    show (~~~(0xe000 : Word)).extractLsb' 6 6 = BitVec.allOnes 6 by decide, BitVec.and_allOnes]

theorem KState.acceptor_congr (h : t.regs c = s.regs c) : t.acceptor c = s.acceptor c :=
  congrArg Registers.acceptor h

/-- `extended_transfer` starts at the first typed item, with the acceptor of the receiver. -/
theorem wp_extendedTransfer {tag : MsgTag} :
    wp (fun _ => True) (extendedTransfer src dst tag)
      (fun y _ => y.point = .items ∧ y.totalMrs = tag.getUntyped + tag.getTyped ∧
        y.srcIdx = tag.getUntyped + 1 ∧ y.acceptStrings = (s.acceptor dst).acceptStrings) s := by
  rw [extendedTransfer]
  dsimp only
  split
  · trivial
  · simp only [wp_bind]
    refine Keeps.wp (f := KState.regs dst) (keepsRegs_modTcb fun _ => rfl) fun _ a ha => ?_
    refine Keeps.wp (f := KState.regs dst) (keepsRegs_modTcb fun _ => rfl) fun _ b hb => ?_
    rw [wp_readTcb]
    refine Keeps.wp (f := KState.regs dst) (keepsRegs_modTcb fun _ => rfl) fun _ d hd => ?_
    refine Keeps.wp (f := KState.regs dst) (keepsRegs_modTcb fun _ => rfl) fun _ e he => ?_
    refine wp_getBr_zero ⟨rfl, rfl, rfl, ?_⟩
    rw [KState.acceptor_congr (he.trans (hd.trans (hb.trans ha)))]

/-- The message with the tag is delivered to its last untyped word; if there is more, `SYS_IPC`
leaves a frame. -/
structure Started (src dst : TcbPtr) (toTid fromTid : ThreadId) (timeout : Timeout) (tag : MsgTag)
    (s t : KState) : Prop where
  delivered : Delivered src dst 1 (1 + tag.getUntyped) s t
  items : tag.getTyped ≠ 0 →
    ∀ y rest, (t.tcb src).stack = .transfer y toTid fromTid timeout :: rest →
      y.point = .items ∧ y.totalMrs = tag.getUntyped + tag.getTyped ∧
        y.srcIdx = tag.getUntyped + 1 ∧ y.acceptStrings = (s.acceptor dst).acceptStrings

/-- `SYS_IPC` behind the untyped words. -/
theorem wp_transferTyped {tag : MsgTag} {a : KState}
    (h : Delivered src dst 1 (1 + tag.getUntyped) s a) :
    wp (fun _ => True)
      (if tag.getTyped = 0 then do
        setTag dst tag
        sendFinished src (some dst) toTid fromTid timeout
      else do
        let x ← extendedTransfer src dst tag
        pushFrame src (.transfer x toTid fromTid timeout))
      (fun _ t => Started src dst toTid fromTid timeout tag s t) a := by
  split
  · rename_i hty
    refine wp_iff_ok.mpr fun _ t ht => ⟨?_, fun hne => absurd hty hne⟩
    have hk : ∀ c, KeepsRegs c (do setTag dst tag; sendFinished src (some dst) toTid fromTid timeout) :=
      fun c => .bind keepsRegs_setTag fun _ => keepsRegs_sendFinished
    exact h.trans (.of_keeps (hk src) (hk dst) ht) (Nat.le_add_right _ _) le_rfl
  · rw [wp_bind]
    refine wp_iff_ok.mpr fun y b hb => ?_
    have hy := wp_ok wp_extendedTransfer hb
    rw [h.acceptor] at hy
    refine wp_iff_ok.mpr fun _ t ht => ⟨?_, fun _ y' rest hst => ?_⟩
    · have hpush : ∀ c, KeepsRegs c (pushFrame src (.transfer y toTid fromTid timeout)) :=
        fun c => keepsRegs_modTcb fun _ => rfl
      have hd := h.trans (.of_keeps keepsRegs_extendedTransfer keepsRegs_extendedTransfer hb)
        (Nat.le_add_right _ _) le_rfl
      exact hd.trans (.of_keeps (hpush src) (hpush dst) ht) (Nat.le_add_right _ _) le_rfl
    · cases ht
      simp only [Function.update_self, List.cons.injEq, Frame.transfer.injEq] at hst
      rw [← hst.1.1]
      exact hy

/-- `SYS_IPC` from the untyped words on. -/
theorem wp_transferUntyped {tag : MsgTag} {a : KState} {x : Kernel Unit}
    (h : Delivered src dst 1 1 s a)
    (hx : ∀ b, Delivered src dst 1 (1 + tag.getUntyped) s b →
      wp (fun _ => True) x (fun _ t => Started src dst toTid fromTid timeout tag s t) b) :
    wp (fun _ => True)
      (if tag.getUntyped ≠ 0 then do
        copyMrs src dst 1 tag.getUntyped
        x
      else x)
      (fun _ t => Started src dst toTid fromTid timeout tag s t) a := by
  split
  · rw [wp_bind]
    refine wp_mono wp_copyMrs_delivered fun _ b hb => hx b ?_
    exact h.trans hb le_rfl (Nat.le_add_right _ _)
  · rename_i hun
    have hzero : tag.getUntyped = 0 := by simpa using hun
    rw [hzero] at hx
    exact hx a h

theorem KState.messageTag_setPartner {tid : ThreadId} :
    ({ s with tcb := Function.update s.tcb q { s.tcb q with partner := tid } } : KState).messageTag
      p = s.messageTag p := by
  simp only [KState.messageTag, KState.reg, KState.utcbOf]
  rcases eq_or_ne p q with rfl | hne
  · simp
  · simp [hne]

theorem wp_ipcTransfer :
    wp (fun _ => True) (ipcTransfer src dst toTid fromTid timeout senderId)
      (fun _ t => Started src dst toTid fromTid timeout (s.messageTag src).clearReceiveFlags s t)
      s := by
  rw [ipcTransfer, wp_bind]
  refine wp_iff_ok.mpr fun _ a ha => ?_
  have hk : ∀ c, KeepsRegs c (setPartner dst senderId) := fun c => keepsRegs_modTcb fun _ => rfl
  have hd : Delivered src dst 1 1 s a := .of_keeps (hk src) (hk dst) ha
  rw [wp_bind]
  refine wp_getTag ?_
  cases ha
  rw [KState.messageTag_setPartner]
  rw [wp_ite]
  split
  · rw [wp_bind, wp_readTcb, wp_bind]
    refine wp_iff_ok.mpr fun _ b hb => ?_
    refine wp_transferUntyped (hd.trans (.of_keeps ?_ ?_ hb) le_rfl le_rfl)
      fun e he => wp_transferTyped he
    · exact keepsRegs_modUtcb (fun _ => rfl) fun _ _ => rfl
    · exact keepsRegs_modUtcb (fun _ => rfl) fun _ _ => rfl
  · exact wp_transferUntyped hd fun e he => wp_transferTyped he

/-- A reply to a receiver that accepts pages but no strings copies its untyped words and its
two-word items. -/
theorem Reply.delivered (h : Reply src dst toTid fromTid senderId timeout s t)
    (hstr : (s.acceptor dst).acceptStrings = false)
    (hwin : (s.acceptor dst).getRcvWindow.isNilFpage = false) :
    Delivered src dst 1 (1 + (s.messageTag src).getUntyped +
      2 * ((s.messageTag src).getTyped / 2)) s t := by
  have hun := MsgTag.getUntyped_clearReceiveFlags (s.messageTag src)
  have hty := MsgTag.getTyped_clearReceiveFlags (s.messageTag src)
  cases h with
  | untyped hz hx =>
    have hd := (wp_ok wp_ipcTransfer hx).delivered
    rw [hun] at hd
    rw [hz]
    exact hd
  | @typed y rest _ a b _ hz hx hst hsrc hdst htr =>
    have hstart := wp_ok wp_ipcTransfer hx
    obtain ⟨hpoint, htotal, hidx, hacc⟩ := hstart.items (by rwa [hty]) y rest hst
    have hd := hstart.delivered
    rw [hun] at hd htotal hidx
    rw [hty] at htotal
    have hb : Delivered src dst 1 (1 + (s.messageTag src).getUntyped) s b :=
      hd.trans (.of_regs hsrc hdst) (Nat.le_add_right _ _) le_rfl
    have hitems := htr.delivered
      ⟨hpoint, hacc.trans hstr, by rw [hb.acceptor]; exact hwin⟩ (by omega)
    have hlo : y.srcIdx = 1 + (s.messageTag src).getUntyped := by omega
    have hhi : y.srcIdx + 2 * ((y.totalMrs + 1 - y.srcIdx) / 2) =
        1 + (s.messageTag src).getUntyped + 2 * ((s.messageTag src).getTyped / 2) := by omega
    rw [hhi, hlo] at hitems
    exact hb.trans hitems (Nat.le_add_right _ _) (Nat.le_add_right _ _)

end Reply

/-! ## The page-fault IPC -/

section Fault

variable {addr ip : Word} {access : Access}

/-- The registers, the acceptor, the partner, the state and the error code of the thread in `c` are
the same in both states. -/
structure Transparent (c : TcbPtr) (s t : KState) : Prop where
  mr : ∀ i < ipcNumMr, t.reg c i = s.reg c i
  br0 : t.acceptor c = s.acceptor c
  partner : (t.tcb c).partner = (s.tcb c).partner
  state : (t.tcb c).state = (s.tcb c).state
  errorCode : (t.utcbOf c).errorCode = (s.utcbOf c).errorCode

/-- The TCB in `t` has saved the state `s` of its thread. -/
structure Saves (c : TcbPtr) (s t : KState) : Prop where
  utcb : ∃ u, (s.tcb c).utcb = some u ∧ (t.tcb c).utcb = some u
  savedMr : ∀ i, (t.tcb c).ipcCopy.savedMr i = s.reg c i
  savedBr0 : (t.tcb c).ipcCopy.savedBr0 = (s.acceptor c).raw
  savedError : (t.tcb c).ipcCopy.savedError = (s.utcbOf c).errorCode
  savedPartner : (t.tcb c).savedPartner = (s.tcb c).partner
  savedState : (t.tcb c).savedState = (s.tcb c).state

theorem Saves.congr {a b : KState} (h : Saves c s a) (hab : (b.tcb c).saved = (a.tcb c).saved) :
    Saves c s b := by
  simp only [Tcb.saved, Prod.mk.injEq] at hab
  obtain ⟨hu, hmr, hbr, herr, hpartner, hstate⟩ := hab
  obtain ⟨u, hsu, hau⟩ := h.utcb
  exact ⟨⟨u, hsu, hu.trans hau⟩, fun i => (congrFun hmr i).trans (h.savedMr i), hbr.trans h.savedBr0,
    herr.trans h.savedError, hpartner.trans h.savedPartner, hstate.trans h.savedState⟩

theorem wp_saveState :
    wp (fun _ => True) (saveState c)
      (fun _ t => Saves c s t ∧ t.currentTcb = s.currentTcb ∧ ∀ i, t.reg c i = s.reg c i) s := by
  simp only [saveState, wp_bind, wp_readUtcb, wp_modTcb, implies_true, true_and]
  intro u hu
  refine ⟨⟨⟨u, hu, by simpa using hu⟩, ?_, ?_, ?_, ?_, ?_⟩, ?_⟩
  all_goals simp [KState.reg, KState.acceptor, KState.utcbOf, hu]

/-- The acceptor for the reply to a page fault: any page, no strings. -/
def pagefaultAcceptor : Acceptor := .ofRcvWindow .complete

theorem wp_setPagefaultMessage :
    wp (fun _ => True) (setPagefaultMessage c addr ip access)
      (fun _ t => t.tcb = s.tcb ∧ t.currentTcb = s.currentTcb ∧
        t.acceptor c = pagefaultAcceptor ∧ ∀ i, 3 ≤ i → t.reg c i = s.reg c i) s := by
  simp only [setPagefaultMessage, setTag, setMr, setBr, wp_bind, wp_modUtcb, implies_true, true_and]
  intro u hu v hv w hw z hz
  rw [hu] at hv hw hz
  cases hv
  cases hw
  cases hz
  refine ⟨?_, fun i hi => ?_⟩
  · simp [KState.acceptor, KState.utcbOf, hu, pagefaultAcceptor]
  · simp [KState.reg, KState.utcbOf, hu, show i ≠ 0 by omega, show i ≠ 1 by omega,
      show i ≠ 2 by omega]

/-- The IPC of a thread leaves its own registers alone. -/
theorem wp_sysIpc_regs {toTid fromTid : ThreadId} {timeout : Timeout} :
    wp (fun _ => True) (sysIpc toTid fromTid timeout)
      (fun _ t => t.regs s.currentTcb = s.regs s.currentTcb) s := by
  rw [sysIpc, wp_bind, wp_getCurrentTcb, wp_ite]
  split
  · exact keepsRegs_sendFinished.wp fun _ t ht => ht
  · rw [wp_bind, wp_readTcb, wp_ite]
    split
    · refine Keeps.wp (f := KState.regs s.currentTcb) ?_ fun _ t ht => ht
      refine .bind keepsRegs_setErrorCode fun _ => .bind keepsRegs_setTag fun _ => ?_
      exact keepsRegs_modTcb fun _ => rfl
    · rw [wp_bind]
      refine Keeps.wp (f := KState.regs s.currentTcb) keepsRegs_ipcSenderId fun senderId a ha => ?_
      rw [wp_bind, wp_readTcb, wp_bind, wp_readTcb, wp_ite]
      split
      · exact wp_mono wp_ipcTransfer fun _ t ht => ht.delivered.sender.trans ha
      · exact keepsRegs_sendBlocking.wp fun _ t ht => ht.trans ha

theorem KState.reg_congr (h : t.regs c = s.regs c) {i : Nat} (hi : 3 ≤ i) :
    t.reg c i = s.reg c i := by
  have hmr : t.reg c (i - 3 + 3) = s.reg c (i - 3 + 3) :=
    congrFun (congrArg Registers.upper h) (i - 3)
  rwa [Nat.sub_add_cancel hi] at hmr

/-- `send_pagefault_ipc` up to the end of `do_ipc`. -/
theorem wp_sendPagefaultIpc (hc : s.currentTcb = c) :
    wp (fun _ => True) (sendPagefaultIpc c addr ip access)
      (fun _ t => Saves c s t ∧ t.acceptor c = pagefaultAcceptor ∧
        ∀ i, 3 ≤ i → t.reg c i = s.reg c i) s := by
  simp only [sendPagefaultIpc, wp_bind]
  refine wp_mono wp_saveState fun _ a hpost => ?_
  obtain ⟨hsave, hcur, hreg⟩ := hpost
  refine wp_mono wp_setPagefaultMessage fun _ b hpost => ?_
  obtain ⟨htcb, hcur', hacc, hupper⟩ := hpost
  rw [wp_readUtcb]
  refine ⟨fun _ => trivial, fun u hu => ?_⟩
  refine wp_iff_ok.mpr fun _ d hd => ?_
  have hpush := (keepsRegs_modTcb fun _ => rfl : KeepsRegs c (pushFrame c .pagefault)) b _ d hd
  have hcurd : d.currentTcb = c := by
    cases hd
    exact hcur'.trans (hcur.trans hc)
  refine wp_mono wp_sysIpc_regs fun _ t ht => ?_
  rw [hcurd] at ht
  have hbt := ht.trans hpush
  refine ⟨hsave.congr ?_, (KState.acceptor_congr hbt).trans hacc, fun i hi => ?_⟩
  · have hsaved : (t.tcb c).saved = (b.tcb c).saved := congrArg Registers.saved hbt
    rw [hsaved, htcb]
  · rw [KState.reg_congr hbt hi, hupper i hi, hreg]

/-- A page fault of the thread in `c` that `p` answers: the fault IPC from `s` on, the reply of `p`
from `r` on, and the end of `send_pagefault_ipc` in `t`. In between other threads may run, but leave
the registers of the blocked thread alone. -/
inductive PagefaultIpc (c p : TcbPtr) : KState → KState → KState → Prop
  | intro {addr ip : Word} {access : Access} {toTid fromTid senderId : ThreadId}
    {timeout : Timeout} {s a r b d t : KState} : s.currentTcb = c →
    sendPagefaultIpc c addr ip access s = .ok ((), a) → r.regs c = a.regs c →
    Reply p c toTid fromTid senderId timeout r b → d.regs c = b.regs c →
    resumePagefault c d = .ok ((), t) → PagefaultIpc c p s r t

/-- `restore_state` gives the thread its saved part back and leaves the other registers. -/
theorem wp_resumePagefault {d : KState} (h : Saves c s d) :
    wp (fun _ => True) (resumePagefault c)
      (fun _ t => (∀ i < 3, t.reg c i = s.reg c i) ∧ (∀ i, 3 ≤ i → t.reg c i = d.reg c i) ∧
        t.acceptor c = s.acceptor c ∧ (t.tcb c).partner = (s.tcb c).partner ∧
        (t.tcb c).state = (s.tcb c).state ∧ (t.utcbOf c).errorCode = (s.utcbOf c).errorCode) d := by
  obtain ⟨u, -, hu⟩ := h.utcb
  rw [resumePagefault, wp_bind]
  refine wp_getTag ?_
  rw [wp_ite]
  split
  · trivial
  · simp only [restoreState, restoreRegisters, setErrorCode, wp_bind, wp_readTcb, wp_modUtcb,
      wp_modTcb, hu, Function.update_self, Option.some.injEq, forall_eq', reduceCtorEq,
      false_implies, true_and]
    refine ⟨fun i hi => ?_, fun i hi => ?_, ?_, ?_, ?_, ?_⟩
    · simp [KState.reg, KState.utcbOf, hi, h.savedMr]
    · simp [KState.reg, KState.utcbOf, hu, show ¬i < 3 by omega]
    · simp [KState.acceptor, KState.utcbOf, h.savedBr0]
    · simp [h.savedPartner]
    · simp [h.savedState]
    · simp [KState.utcbOf, h.savedError]

/-- The faulting thread at the end of `send_pagefault_ipc`: only the registers of the reply from the
fourth on are not its own. -/
theorem PagefaultIpc.restored {r : KState} (h : PagefaultIpc c p s r t) :
    (∀ i < 3, t.reg c i = s.reg c i) ∧
    (∀ i, 3 ≤ i → t.reg c i =
      if i ≤ (r.messageTag p).getUntyped + 2 * ((r.messageTag p).getTyped / 2) then r.reg p i
      else s.reg c i) ∧
    t.acceptor c = s.acceptor c ∧ (t.tcb c).partner = (s.tcb c).partner ∧
    (t.tcb c).state = (s.tcb c).state ∧ (t.utcbOf c).errorCode = (s.utcbOf c).errorCode := by
  cases h with
  | @intro _ _ _ _ _ _ _ _ a _ b d _ hc hfault henv hreply henv' hres =>
    obtain ⟨hsave, hacc, hreg⟩ := wp_ok (wp_sendPagefaultIpc hc) hfault
    have hracc : r.acceptor c = pagefaultAcceptor := (KState.acceptor_congr henv).trans hacc
    have hd : Delivered p c 1 _ r b :=
      hreply.delivered (by rw [hracc]; decide) (by rw [hracc]; decide)
    have hsaved : (d.tcb c).saved = (a.tcb c).saved :=
      (congrArg Registers.saved henv').trans (hd.saved.trans (congrArg Registers.saved henv))
    obtain ⟨hlow, hup, hrest⟩ := wp_ok (wp_resumePagefault (hsave.congr hsaved)) hres
    refine ⟨hlow, fun i hi => ?_, hrest⟩
    have hri : r.reg c i = s.reg c i := (KState.reg_congr henv hi).trans (hreg i hi)
    calc t.reg c i
        = d.reg c i := hup i hi
      _ = b.reg c i := KState.reg_congr henv' hi
      _ = if 1 ≤ i ∧ i < _ then r.reg p i else r.reg c i := hd.mr i hi
      _ = if i ≤ (r.messageTag p).getUntyped + 2 * ((r.messageTag p).getTyped / 2) then r.reg p i
          else s.reg c i := by
        rw [hri]
        exact if_congr (by omega) rfl rfl

def faulter : TcbPtr := getTcb (sampleTid 0)

def samplePager : TcbPtr := getTcb (sampleTid 1)

/-- A thread with the numbers 100 to 163 in its message registers is running, and its pager, with
`w` in MR3, waits for faults. -/
def KState.faulting (w : Word) : KState :=
  let s := KState.zero .sample
  { s with
    currentTcb := faulter
    tcb := fun p =>
      if p = faulter then
        { Tcb.zero with
          myselfGlobal := sampleTid 0, utcb := some (.user 0), space := some (.heap 0)
          state := .running }
      else if p = samplePager then
        { Tcb.zero with
          myselfGlobal := sampleTid 1, utcb := some (.user 1024), space := some (.heap 0)
          state := .waitingForever, partner := .anythread }
      else s.tcb p
    utcb := fun u =>
      if u = .user 0 then
        { Utcb.zero with pager := sampleTid 1, mr := fun i => 100 + BitVec.ofNat 64 i }
      else if u = .user 1024 then { Utcb.zero with mr := fun i => if i = 3 then w else 0 }
      else .zero }

/-- A reply with three untyped words. -/
def sampleReply : MsgTag := .tag 0 3 0

/-- The fault and the tag of the reply. -/
def faultAndTag : Kernel Unit := do
  sendPagefaultIpc faulter 0x1000 0x2000 .read
  setTag samplePager sampleReply

/-- The reply, and the faulting thread back in the kernel. -/
def replyAndResume : Kernel Unit := do
  ipcTransfer samplePager faulter (sampleTid 0) .nilthread .never (sampleTid 1)
  resumeReceived faulter
  resumePagefault faulter

theorem keepsRegs_resumeReceived : KeepsRegs c (resumeReceived p) := by
  unfold resumeReceived returnIpc
  refine .bind (keepsRegs_modTcb fun _ => rfl) fun _ => .bind (.gets _) fun _ => ?_
  exact keepsRegs_modTcb fun _ => rfl

theorem exists_pagefaultIpc {w : Word}
    (h : returnsWith faultAndTag (fun _ r =>
      decide (r.messageTag samplePager = sampleReply ∧ r.reg samplePager 3 = w) &&
        (replyAndResume r).isOk) (.faulting w) = true) :
    ∃ r t, PagefaultIpc faulter samplePager (.faulting w) r t ∧
      r.messageTag samplePager = sampleReply ∧ r.reg samplePager 3 = w := by
  obtain ⟨_, r, hr, h⟩ := exists_of_returnsWith h
  rw [Bool.and_eq_true] at h
  obtain ⟨hmsg, hok⟩ := h
  obtain ⟨htag, hmr⟩ := of_decide_eq_true hmsg
  obtain ⟨⟨⟩, a, hfault, hset⟩ := bind_eq_ok.mp hr
  cases hrest : replyAndResume r with
  | error e =>
    rw [hrest] at hok
    cases hok
  | ok q =>
    obtain ⟨⟨⟩, t⟩ := q
    obtain ⟨⟨⟩, b, hreply, hrest⟩ := bind_eq_ok.mp hrest
    obtain ⟨⟨⟩, d, hrecv, hres⟩ := bind_eq_ok.mp hrest
    have hreply' : Reply samplePager faulter _ _ _ _ r b := .untyped (by rw [htag]; decide) hreply
    exact ⟨r, t, .intro rfl hfault (keepsRegs_setTag a _ r hset) hreply'
      (keepsRegs_resumeReceived b _ d hrecv) hres, htag, hmr⟩

end Fault

end L4Thread
