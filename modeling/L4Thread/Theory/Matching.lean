import L4Thread.Theory.Core
import L4Thread.Theory.Wp

/-!
# Matching of a send and a receive

The sender compares the partner field of a waiting receiver with the id it sends under; the receiver
looks for a polling thread at the head of its send queue or in the TCB it names. The outcome of a
send and a receive with infinite timeouts is compared for the two orders of arrival.
-/

namespace L4Thread

open TrapM Kernel

variable {s t : KState} {a b p q : TcbPtr} {toTid fromTid aFrom sid : ThreadId} {timeout : Timeout}

/-! ## The two orders -/

/-- `a` sends to `toTid`, then `b` receives from `fromTid`. If `b` selects `a`, it is switched to and
goes on with its send. -/
def sendFirst (a b : TcbPtr) (toTid aFrom fromTid : ThreadId) : Kernel Unit := do
  switchTo a
  sysIpc toTid aFrom .never
  switchTo b
  sysIpc .nilthread fromTid .never
  if (← getCurrentTcb) = a then resume

/-- `b` receives from `fromTid`, then `a` sends to `toTid`. -/
def receiveFirst (a b : TcbPtr) (toTid aFrom fromTid : ThreadId) : Kernel Unit := do
  switchTo b
  sysIpc .nilthread fromTid .never
  switchTo a
  sysIpc toTid aFrom .never

/-- The sender `b` is told, if the message of `a` reached it; a sender without a partner polls. -/
def KState.outcome (a b : TcbPtr) (t : KState) : Option ThreadId :=
  if (t.tcb a).state = .polling then none else some (t.tcb b).partner

/-- Two threads at user level, the second of which no thread polls on. -/
structure Meeting (a b : TcbPtr) (toTid : ThreadId) (s : KState) : Prop where
  ne : a ≠ b
  tcb : getTcb toTid = b
  global : (s.tcb b).myselfGlobal = toTid
  notNil : toTid.isNilthread = false
  sender : getTcb (s.tcb a).myselfGlobal = a
  runningA : (s.tcb a).state = .running
  runningB : (s.tcb b).state = .running
  ids : ∀ x, (s.tcb x).myselfGlobal ≠ .anylocalthread
  noQueue : (s.tcb b).sendHead = none
  noTraffic : ∀ x, pollsOn (s.tcb b) (s.tcb x) = false

/-- The id `a` sends to `b` under: its own, or that of a virtual sender it may act for. -/
def KState.senderId (s : KState) (a b : TcbPtr) : ThreadId :=
  let virt := (s.utcbOf a).virtualSender
  let v := s.tcb (getTcb virt)
  if (s.messageTag a).isPropagated ∧ virt = v.myselfGlobal ∧
      ((s.tcb a).space = v.space ∨ (s.tcb a).space = (s.tcb b).space) then virt
  else (s.tcb a).myselfGlobal

/-- `fromTid` names `a` for the receiver `b`. -/
def KState.ReceivesFrom (s : KState) (a b : TcbPtr) (fromTid : ThreadId) : Prop :=
  getTcb fromTid = a ∧ ((s.tcb a).myselfGlobal = fromTid ∨
    ((s.tcb a).space = (s.tcb b).space ∧ (s.tcb a).myselfLocal = fromTid))

instance (s : KState) (a b : TcbPtr) (fromTid : ThreadId) :
    Decidable (s.ReceivesFrom a b fromTid) :=
  inferInstanceAs (Decidable (_ ∧ _))

/-- Both sides decide alike whether the message of `a` is one that `b` asks for: the sender by the
id it sends under, the receiver by the thread that polls. -/
def KState.OrderFree (s : KState) (a b : TcbPtr) (fromTid : ThreadId) : Prop :=
  if fromTid.isAnythread then True
  else if fromTid.isAnylocalthread then (s.tcb a).space = (s.tcb b).space
  else s.ReceivesFrom a b fromTid ↔ fromTid = s.senderId a b

/-! ## The send -/

theorem wp_ipcSenderId :
    wp (fun _ => True) (ipcSenderId a b)
      (fun id t => id = s.senderId a b ∧ t.tcb = s.tcb ∧ t.currentTcb = s.currentTcb) s := by
  simp only [ipcSenderId, wp_bind, wp_readTcb]
  refine wp_getTag ?_
  rw [wp_ite]
  split
  · rename_i hprop
    rw [wp_bind]
    refine wp_readUtcb_of ?_
    simp only [wp_bind, wp_readTcb, wp_ite, wp_pure]
    split
    · rename_i hok
      rw [KState.senderId, if_pos ⟨hprop, hok⟩]
      simp
    · rename_i hbad
      simp only [setTag, setMr, wp_modUtcb, implies_true, true_and]
      intro u hu
      simp [KState.senderId, hbad]
  · rename_i hprop
    simp [KState.senderId, hprop]

/-- The message of `a` has reached `b` under `sid`. -/
def Told (a b : TcbPtr) (sid : ThreadId) (t : KState) : Prop :=
  (t.tcb a).state ≠ .polling ∧ (t.tcb b).partner = sid

theorem Told.outcome (h : Told a b sid t) : t.outcome a b = some sid := by
  rw [KState.outcome, if_neg h.1, h.2]

abbrev PreservesTold (a b : TcbPtr) (sid : ThreadId) {α : Type} (x : Kernel α) : Prop :=
  Preserves (Told a b sid) x

section Told

variable {α : Type} {x : Kernel α}

theorem preservesTold_of_core (h : KeepsCore x) : PreservesTold a b sid x := by
  intro s r t hs hx
  have hcore := h s r t hx
  simp only [KState.core, Core.mk.injEq] at hcore
  have hstate : (t.tcb a).core.state = (s.tcb a).core.state := by rw [congrFun hcore.1 a]
  have hpartner : (t.tcb b).core.partner = (s.tcb b).core.partner := by rw [congrFun hcore.1 b]
  exact ⟨fun h => hs.1 (hstate.symm.trans h), hpartner.trans hs.2⟩

/-- Changes of a TCB that start no polling, and leave the partner of `b`. -/
@[grind ←] theorem preservesTold_modTcb {f : Tcb → Tcb}
    (hst : ∀ c, c.state ≠ .polling → (f c).state ≠ .polling)
    (hpartner : p = b → ∀ c, (f c).partner = c.partner) :
    PreservesTold a b sid (modTcb p f) := by
  refine .modify fun s hs => ⟨?_, ?_⟩
  · rcases eq_or_ne a p with rfl | hne
    · simpa using hst _ hs.1
    · simpa [hne] using hs.1
  · rcases eq_or_ne b p with rfl | hne
    · simpa [hpartner rfl] using hs.2
    · simpa [hne] using hs.2

@[grind ←] theorem preservesTold_getUtcb : PreservesTold a b sid (getUtcb p) :=
  .of_keeps (f := id) keeps_getUtcb

@[grind ←] theorem preservesTold_modUtcb {f : Utcb → Utcb} :
    PreservesTold a b sid (modUtcb p f) :=
  .bind preservesTold_getUtcb fun _ => .modify fun _ hs => hs

@[grind ←] theorem preservesTold_enqueueReady {h : Bool} :
    PreservesTold a b sid (enqueueReady p h) :=
  preservesTold_of_core keepsCore_enqueueReady

@[grind ←] theorem preservesTold_setTimeout {time : Time} :
    PreservesTold a b sid (setTimeout p time) :=
  preservesTold_of_core keepsCore_setTimeout

@[grind ←] theorem preservesTold_cancelTimeout : PreservesTold a b sid (cancelTimeout p) :=
  preservesTold_of_core keepsCore_cancelTimeout

@[grind ←] theorem preservesTold_checkDispatchThread :
    PreservesTold a b sid (checkDispatchThread p q) :=
  preservesTold_of_core keepsCore_checkDispatchThread

@[grind ←] theorem preservesTold_switchTo : PreservesTold a b sid (switchTo p) :=
  .modify fun _ hs => hs

@[grind ←] theorem preservesTold_setState {state : ThreadState} (h : state ≠ .polling) :
    PreservesTold a b sid (setState p state) :=
  preservesTold_modTcb (fun _ _ => h) fun _ _ => rfl

@[grind ←] theorem preservesTold_setPartner {tid : ThreadId} (h : p ≠ b) :
    PreservesTold a b sid (setPartner p tid) :=
  preservesTold_modTcb (fun _ hc => hc) fun hp => absurd hp h

@[grind ←] theorem preservesTold_pushFrame {f : Frame} : PreservesTold a b sid (pushFrame p f) :=
  preservesTold_modTcb (fun _ hc => hc) fun _ _ => rfl

@[grind ←] theorem preservesTold_returnIpc {tid : ThreadId} :
    PreservesTold a b sid (returnIpc p tid) :=
  preservesTold_modTcb (fun _ hc => hc) fun _ _ => rfl

@[grind ←] theorem preservesTold_setErrorCode {err : Word} :
    PreservesTold a b sid (setErrorCode p err) :=
  preservesTold_modUtcb

@[grind ←] theorem preservesTold_setTag {tag : MsgTag} : PreservesTold a b sid (setTag p tag) := by
  unfold setTag setMr
  exact preservesTold_modUtcb

@[grind ←] theorem preservesTold_readUtcb : PreservesTold a b sid (readUtcb p) :=
  .of_keeps (f := id) keeps_readUtcb

theorem preservesTold_getTag : PreservesTold a b sid (getTag p) := by
  unfold getTag getMr
  exact .bind (.bind preservesTold_readUtcb fun _ => .pure _) fun _ => .pure _

@[grind ←] theorem preservesTold_readTcb : PreservesTold a b sid (readTcb p) := .gets _

@[grind ←] theorem preservesTold_ofLinks {o : Option TcbPtr} :
    PreservesTold a b sid (ofLinks o) :=
  .of_keeps (f := id) keeps_ofLinks

theorem preservesTold_receivePartner : PreservesTold a b sid (receivePartner p fromTid) := by
  unfold receivePartner
  grind

theorem preservesTold_receiveBlocking {o : Option TcbPtr} (hab : a ≠ b) :
    PreservesTold a b sid (receiveBlocking a o fromTid timeout) := by
  unfold receiveBlocking
  repeat' first | with_reducible refine Preserves.bind ?_ fun _ => ?_ | split
  all_goals grind

theorem preservesTold_receiveFrom {o : Option TcbPtr} :
    PreservesTold a b sid (receiveFrom a o p) := by
  unfold receiveFrom
  repeat' first | with_reducible refine Preserves.bind ?_ fun _ => ?_ | split
  all_goals grind

theorem preservesTold_ipcReceive {o : Option TcbPtr} (hab : a ≠ b) :
    PreservesTold a b sid (ipcReceive a o toTid fromTid timeout) := by
  unfold ipcReceive
  repeat' first | with_reducible refine Preserves.bind ?_ fun _ => ?_ | split
  all_goals grind [preservesTold_receivePartner, preservesTold_receiveBlocking,
    preservesTold_receiveFrom]

theorem preservesTold_sendOnly : PreservesTold a b sid (sendOnly a p) := by
  unfold sendOnly
  repeat' first | with_reducible refine Preserves.bind ?_ fun _ => ?_ | split
  all_goals grind

theorem preservesTold_sendFinished {o : Option TcbPtr} (hab : a ≠ b) :
    PreservesTold a b sid (sendFinished a o toTid fromTid timeout) := by
  unfold sendFinished
  repeat' first | with_reducible refine Preserves.bind ?_ fun _ => ?_ | split
  all_goals grind [preservesTold_sendOnly, preservesTold_ipcReceive]

theorem preservesTold_copyMrs {start count : Nat} :
    PreservesTold a b sid (copyMrs p q start count) := by
  unfold copyMrs
  exact .bind preservesTold_readUtcb fun _ => preservesTold_modUtcb

theorem preservesTold_extendedTransfer {tag : MsgTag} (hab : a ≠ b) :
    PreservesTold a b sid (extendedTransfer a b tag) := by
  unfold extendedTransfer getBr
  dsimp only
  split
  · exact .trap _
  · repeat' with_reducible refine Preserves.bind ?_ fun _ => ?_
    all_goals grind

/-- The transfer tells `b` the id `a` sends under. -/
theorem wp_ipcTransfer_told (hab : a ≠ b) (hs : (s.tcb a).state ≠ .polling) :
    wp (fun _ => True) (ipcTransfer a b toTid fromTid timeout sid)
      (fun _ t => Told a b sid t) s := by
  rw [ipcTransfer, wp_bind, setPartner, wp_modTcb]
  refine Preserves.wp (I := Told a b sid) ?_ ⟨by simpa [hab] using hs, by simp⟩ fun _ t ht => ht
  have htyped : ∀ tag : MsgTag, PreservesTold a b sid
      (if tag.getTyped = 0 then do
        setTag b tag
        sendFinished a (some b) toTid fromTid timeout
      else do
        let x ← extendedTransfer a b tag
        pushFrame a (.transfer x toTid fromTid timeout)) := by
    intro tag
    split
    · exact .bind preservesTold_setTag fun _ => preservesTold_sendFinished hab
    · exact .bind (preservesTold_extendedTransfer hab) fun _ => preservesTold_pushFrame
  have huntyped : ∀ tag : MsgTag, ∀ x : Kernel Unit, PreservesTold a b sid x →
      PreservesTold a b sid
        (if tag.getUntyped ≠ 0 then do
          copyMrs a b 1 tag.getUntyped
          x
        else x) := by
    intro tag x hx
    split
    · exact .bind preservesTold_copyMrs fun _ => hx
    · exact hx
  refine .bind preservesTold_getTag fun tag => ?_
  dsimp only
  split
  · refine .bind preservesTold_readTcb fun _ => .bind preservesTold_modUtcb fun _ => ?_
    exact huntyped _ _ (htyped _)
  · exact huntyped _ _ (htyped _)

end Told

/-- `a` polls on `b` behind its blocked send. -/
structure Polls (a b : TcbPtr) (toTid aFrom sid : ThreadId) (s t : KState) : Prop where
  state : (t.tcb a).state = .polling
  partner : (t.tcb a).partner = toTid
  frame : ∃ rest, (t.tcb a).stack = .sendBlocked toTid aFrom .never sid :: rest
  others : ∀ x, x ≠ a → (t.tcb x).state = (s.tcb x).state ∧ (t.tcb x).partner = (s.tcb x).partner
  queue : (s.tcb b).sendHead = none → (t.tcb b).sendHead = some a

theorem wp_sendBlocking_polls (hab : a ≠ b) :
    wp (fun _ => True) (sendBlocking a b toTid aFrom .never sid)
      (fun _ t => Polls a b toTid aFrom sid s t) s := by
  have hz : (Timeout.never.getSnd).isZero = false := by decide
  have hn : (Timeout.never.getSnd).isNever = true := by decide
  simp only [sendBlocking, hz, hn, enqueueSend, setSendQueue, setPartner, setState, pushFrame,
    switchToIdle, Bool.not_true, Bool.false_eq_true, if_false, wp_bind, wp_gets, id]
  cases hring : Ring.enqueueTail (s.tcb b).sendHead s.sendList a with
  | none => trivial
  | some r =>
    obtain ⟨h, links⟩ := r
    simp only [ofLinks, wp_pure, wp_modTcb, setSendLinks, wp_modify, setSend, wp_switchTo,
      Function.update_self, Function.update_idem]
    refine ⟨by simp, by simp, ⟨(s.tcb a).stack, by simp [hab]⟩, fun x hx => ?_, fun hnone => ?_⟩
    · rcases eq_or_ne x b with rfl | hxb
      · simp [hx]
      · simp [hx, hxb]
    · rw [hnone, Ring.enqueueTail, Option.some.injEq, Prod.mk.injEq] at hring
      simp [hab.symm, ← hring.1]

/-- The send of `a`: it reaches `b` if `b` waits for the id `a` sends under, else `a` polls. -/
theorem wp_send (hab : a ≠ b) (hcur : s.currentTcb = a) (htcb : getTcb toTid = b)
    (hid : (s.tcb b).myselfGlobal = toTid) (hnil : toTid.isNilthread = false)
    (hrun : (s.tcb a).state = .running) :
    wp (fun _ => True) (sysIpc toTid aFrom .never)
      (fun _ t => if waitsFor (s.tcb a) (s.tcb b) (s.senderId a b) then Told a b (s.senderId a b) t
        else Polls a b toTid aFrom (s.senderId a b) s t) s := by
  simp only [sysIpc, wp_bind, wp_getCurrentTcb, wp_ite, hnil, hcur, htcb, wp_readTcb, hid]
  rw [if_neg (by simp), if_neg (by simp)]
  refine wp_mono wp_ipcSenderId ?_
  rintro _ u ⟨rfl, hu, -⟩
  rw [hu]
  split
  · refine wp_ipcTransfer_told hab ?_
    rw [hu, hrun]
    decide
  · refine wp_mono (wp_sendBlocking_polls hab) fun _ t ht => ?_
    obtain ⟨hst, hp, hf, ho, hq⟩ := ht
    rw [hu] at ho hq
    exact ⟨hst, hp, hf, ho, hq⟩

/-! ## The receive -/

/-- What a receive of `b` from `fromTid` finds: an invalid specifier, no sender or a polling
thread. -/
def KState.select (s : KState) (b : TcbPtr) (fromTid : ThreadId) : Option (Option TcbPtr) :=
  if fromTid.isAnythread ∨ fromTid.isAnylocalthread then
    some ((s.tcb b).sendHead.filter fun f => pollsOn (s.tcb b) (s.tcb f))
  else
    let f := s.tcb (getTcb fromTid)
    if f.myselfGlobal ≠ fromTid ∧ (f.space ≠ (s.tcb b).space ∨ f.myselfLocal ≠ fromTid) then none
    else some (if pollsOn (s.tcb b) f then some (getTcb fromTid) else none)

/-- `b` waits for `fromTid`. -/
structure Waits (b : TcbPtr) (fromTid : ThreadId) (s t : KState) : Prop where
  state : (t.tcb b).state = .waitingForever
  partner : (t.tcb b).partner = fromTid
  others : ∀ x, x ≠ b → t.tcb x = s.tcb x
  utcb : t.utcb = s.utcb
  current : t.currentTcb = .idle

/-- `b` has selected `f`. -/
structure Selects (b f : TcbPtr) (s t : KState) : Prop where
  state : (t.tcb f).state ≠ .polling
  stack : f ≠ b → (t.tcb f).stack = (s.tcb f).stack
  current : t.currentTcb = f

/-- The result of a receive that found `r`. -/
def Received (b : TcbPtr) (fromTid : ThreadId) (s : KState) :
    Option (Option TcbPtr) → KState → Prop
  | none, t => t.currentTcb = s.currentTcb ∧
      ∀ x, (t.tcb x).state = (s.tcb x).state ∧ (t.tcb x).partner = (s.tcb x).partner
  | some none, t => Waits b fromTid s t
  | some (some f), t => Selects b f s t

theorem wp_receiveBlocking_waits :
    wp (fun _ => True) (receiveBlocking b none fromTid .never) (fun _ t => Waits b fromTid s t) s := by
  have hz : (Timeout.never.getRcv).isZero = false := by decide
  have hn : (Timeout.never.getRcv).isNever = true := by decide
  simp only [receiveBlocking, hz, hn, setState, setPartner, pushFrame, Bool.not_true,
    Bool.false_eq_true, if_false, wp_bind, wp_modTcb, wp_switchTo, Option.getD_none,
    Function.update_self, Function.update_idem]
  exact ⟨by simp, by simp, fun x hx => by simp [hx], rfl, rfl⟩

theorem wp_receiveFrom_selects :
    wp (fun _ => True) (receiveFrom b none p) (fun _ t => Selects b p s t) s := by
  simp only [receiveFrom, setState, pushFrame, wp_bind, wp_modTcb, wp_switchTo]
  refine ⟨?_, fun hpb => ?_, rfl⟩
  · rcases eq_or_ne p b with rfl | hpb
    · simp
    · simp [hpb]
  · simp [hpb]

/-- The end of the receive phase, with a partner to look at. -/
theorem wp_receive_from (b f : TcbPtr) (fromTid : ThreadId) :
    wp (fun _ => True)
      (do if pollsOn (← readTcb b) (← readTcb f) then receiveFrom b none f
          else receiveBlocking b none fromTid .never)
      (fun _ t => Received b fromTid s (some (if pollsOn (s.tcb b) (s.tcb f) then some f else none)) t)
      s := by
  simp only [wp_bind, wp_readTcb, wp_ite]
  split
  · exact wp_receiveFrom_selects
  · exact wp_receiveBlocking_waits

theorem wp_receive (hcur : s.currentTcb = b) (hnil : fromTid.isNilthread = false) :
    wp (fun _ => True) (sysIpc .nilthread fromTid .never)
      (fun _ t => Received b fromTid s (s.select b fromTid) t) s := by
  have hne : fromTid ≠ .nilthread := by simpa [ThreadId.isNilthread] using hnil
  simp only [sysIpc, wp_bind, wp_getCurrentTcb, hcur, show ThreadId.nilthread.isNilthread = true from rfl,
    if_true, sendFinished, hnil, Bool.false_eq_true, if_false, ipcReceive, hne, false_and,
    receivePartner, wp_readTcb, wp_ite, wp_pure]
  rw [KState.select]
  split
  · cases hhead : (s.tcb b).sendHead with
    | none => exact wp_receiveBlocking_waits
    | some f => exact wp_receive_from b f fromTid
  · split
    · rename_i hbad
      rw [if_pos hbad]
      simp only [setTag, setMr, setErrorCode, returnIpc, wp_modUtcb, wp_modTcb, implies_true,
        true_and]
      intro u hu v hv
      refine ⟨rfl, fun x => ?_⟩
      rcases eq_or_ne x b with rfl | hx
      · simp
      · simp [hx]
    · rename_i hgood
      rw [if_neg hgood]
      simpa only [wp_bind, wp_readTcb, wp_ite] using wp_receive_from b (getTcb fromTid) fromTid

/-! ## The outcomes -/

theorem preservesTold_dequeueSend : PreservesTold a b sid (dequeueSend p q) := by
  unfold dequeueSend setSendQueue setSendLinks setSend
  refine .bind (.gets _) fun _ => .bind (.of_keeps (f := id) keeps_ofLinks) fun _ => ?_
  refine .bind (.bind ?_ fun _ => .modify fun _ hs => hs) fun _ => ?_
  · exact preservesTold_modTcb (fun _ hc => hc) fun _ _ => rfl
  · exact preservesTold_modTcb (fun _ hc => hc) fun _ _ => rfl

/-- The selected sender goes on with its send. -/
theorem wp_resume_told {rest : List Frame} (hab : a ≠ b) (htcb : getTcb toTid = b)
    (hcur : s.currentTcb = a) (hst : (s.tcb a).state ≠ .polling)
    (hstack : (s.tcb a).stack = .sendBlocked toTid fromTid timeout sid :: rest) :
    wp (fun _ => True) resume (fun _ t => Told a b sid t) s := by
  rw [resume, wp_bind, wp_getCurrentTcb, hcur, wp_bind, wp_readTcb, hstack]
  dsimp only
  rw [wp_bind, wp_modTcb, runFrame, resumeSend, htcb, wp_bind]
  refine Preserves.wp (I := Told a b (s.tcb b).partner) preservesTold_cancelTimeout ?_
    fun _ u hu => ?_
  · refine ⟨by simpa using hst, ?_⟩
    simp [hab.symm]
  · rw [wp_bind]
    refine Preserves.wp preservesTold_dequeueSend hu fun _ v hv => ?_
    exact wp_ipcTransfer_told hab hv.1

theorem Polls.outcome (h : Polls a b toTid aFrom sid s t) : t.outcome a b = none := by
  rw [KState.outcome, if_pos h.state]

/-- The id a thread sends under is the id of a thread. -/
theorem Meeting.senderId_global (h : Meeting a b toTid s) :
    (s.tcb (getTcb (s.senderId a b))).myselfGlobal = s.senderId a b := by
  rw [KState.senderId]
  split
  · rename_i hvirt
    exact hvirt.2.1.symm
  · rw [h.sender]

theorem KState.senderId_congr (hident : t.ident = s.ident) (hutcb : t.utcb = s.utcb) :
    t.senderId a b = s.senderId a b := by
  have hid : ∀ x, (t.tcb x).ident = (s.tcb x).ident := congrFun (congrArg Ident.tcb hident)
  simp only [Tcb.ident, TcbIdent.mk.injEq] at hid
  have hof : t.utcbOf a = s.utcbOf a := by
    simp only [KState.utcbOf, hid, hutcb]
  have htag : t.messageTag a = s.messageTag a := by
    simp only [KState.messageTag, KState.reg, hof]
  simp only [KState.senderId, hof, htag, hid]

/-- `p` is dispatched. -/
def KState.dispatch (s : KState) (p : TcbPtr) : KState := { s with currentTcb := p }

theorem switchTo_bind {α : Type} {x : Kernel α} {r : α}
    (h : (do switchTo p; x) s = .ok (r, t)) : x (s.dispatch p) = .ok (r, t) := h

/-- The receiver finds no one. -/
theorem Meeting.select (h : Meeting a b toTid s) :
    s.select b fromTid = none ∧ fromTid ≠ s.senderId a b ∧ fromTid.isAnythread = false ∧
      fromTid.isAnylocalthread = false ∨ s.select b fromTid = some none := by
  rw [KState.select]
  split
  · rw [h.noQueue]
    exact .inr rfl
  · rename_i hany
    dsimp only
    split
    · rename_i hbad
      refine .inl ⟨rfl, fun heq => ?_, ?_⟩
      · rw [heq] at hbad
        exact hbad.1 h.senderId_global
      · simpa using hany
    · rw [h.noTraffic]
      exact .inr rfl

theorem outcome_receiveFirst (h : Meeting a b toTid s) (hnil : fromTid.isNilthread = false)
    (ht : receiveFirst a b toTid aFrom fromTid s = .ok ((), t)) :
    t.outcome a b =
      if fromTid.isAnythread ∨ (fromTid.isAnylocalthread ∧ (s.tcb a).space = (s.tcb b).space) ∨
        fromTid = s.senderId a b then some (s.senderId a b) else none := by
  obtain ⟨⟨⟩, v, hv, ht⟩ := bind_eq_ok.mp (switchTo_bind ht)
  have ht := switchTo_bind ht
  have hident : (v.dispatch a).ident = s.ident := keepsIdent_sysIpc (s.dispatch b) _ v hv
  have hid : ∀ x, (v.tcb x).ident = (s.tcb x).ident := congrFun (congrArg Ident.tcb hident)
  simp only [Tcb.ident, TcbIdent.mk.injEq] at hid
  have hrecv := wp_ok (wp_receive (s := s.dispatch b) (b := b) rfl hnil) hv
  have hglob : ((v.dispatch a).tcb b).myselfGlobal = toTid := (hid b).1.trans h.global
  rcases h.select with ⟨hsel, hne, hany, hloc⟩ | hsel
  · -- an invalid specifier: the receiver is not waiting
    have hsel' : (s.dispatch b).select b fromTid = none := hsel
    rw [hsel'] at hrecv
    have hrun : ((v.dispatch a).tcb a).state = .running := (hrecv.2 a).1.trans h.runningA
    have hsend := wp_ok (wp_send h.ne rfl h.tcb hglob h.notNil hrun) ht
    have hb : (v.tcb b).state = .running := (hrecv.2 b).1.trans h.runningB
    have hwait : waitsFor ((v.dispatch a).tcb a) ((v.dispatch a).tcb b)
        ((v.dispatch a).senderId a b) = false := by
      simp [waitsFor, KState.dispatch, hb, ThreadState.isWaiting]
    rw [hwait, if_neg (by simp)] at hsend
    rw [hsend.outcome, if_neg (by simp [hany, hloc, hne])]
  · have hsel' : (s.dispatch b).select b fromTid = some none := hsel
    rw [hsel'] at hrecv
    have hrun : ((v.dispatch a).tcb a).state = .running :=
      (congrArg Tcb.state (hrecv.others a h.ne)).trans h.runningA
    have hsend := wp_ok (wp_send h.ne rfl h.tcb hglob h.notNil hrun) ht
    have hsid : (v.dispatch a).senderId a b = s.senderId a b :=
      KState.senderId_congr hident hrecv.utcb
    have hwait : waitsFor ((v.dispatch a).tcb a) ((v.dispatch a).tcb b) (s.senderId a b) = true ↔
        (fromTid.isAnythread ∨ (fromTid.isAnylocalthread ∧ (s.tcb a).space = (s.tcb b).space) ∨
          fromTid = s.senderId a b) := by
      simp only [waitsFor, KState.dispatch, hrecv.state, hrecv.partner, (hid a).2.2.2.1,
        (hid b).2.2.2.1, ThreadState.isWaiting]
      simp
      tauto
    rw [hsid] at hsend
    by_cases hw : waitsFor ((v.dispatch a).tcb a) ((v.dispatch a).tcb b) (s.senderId a b)
    · rw [if_pos hw] at hsend
      rw [hsend.outcome, if_pos (hwait.mp hw)]
    · rw [if_neg hw] at hsend
      rw [hsend.outcome, if_neg fun hc => hw (hwait.mpr hc)]

/-- With `a` polling, the receiver selects `a` if it looks at its queue or names `a`. -/
theorem Polls.select {u : KState} (fromTid : ThreadId) (hp : Polls a b toTid aFrom sid s u)
    (h : Meeting a b toTid s) (hident : u.ident = s.ident) :
    if fromTid.isAnythread ∨ fromTid.isAnylocalthread ∨ s.ReceivesFrom a b fromTid then
      u.select b fromTid = some (some a)
    else u.select b fromTid = none ∨ u.select b fromTid = some none := by
  have hid : ∀ x, (u.tcb x).ident = (s.tcb x).ident := congrFun (congrArg Ident.tcb hident)
  simp only [Tcb.ident, TcbIdent.mk.injEq] at hid
  have hpolls : pollsOn (u.tcb b) (u.tcb a) = true := by
    simp [pollsOn, hp.state, hp.partner, ThreadState.isPolling, (hid b).1, h.global]
  have hothers : ∀ x, x ≠ a → pollsOn (u.tcb b) (u.tcb x) = false := by
    intro x hx
    have hx' := h.noTraffic x
    obtain ⟨hst, hpa⟩ := hp.others x hx
    simpa only [pollsOn, hst, hpa, (hid b).1, (hid b).2.1] using hx'
  rw [KState.select, hp.queue h.noQueue]
  dsimp only
  by_cases hany : fromTid.isAnythread ∨ fromTid.isAnylocalthread
  · rw [if_pos (by tauto), if_pos hany, Option.filter_some, if_pos hpolls]
  · rw [if_neg hany]
    simp only [(hid _).1, (hid _).2.1, (hid _).2.2.2.1]
    by_cases hnames : s.ReceivesFrom a b fromTid
    · rw [if_pos (by tauto)]
      obtain ⟨hslot, hnames⟩ := hnames
      rw [hslot, if_neg (by tauto), if_pos hpolls]
    · rw [if_neg (by tauto)]
      split
      · exact .inl rfl
      · rename_i hgood
        have hslot : getTcb fromTid ≠ a := by
          intro hslot
          rw [hslot] at hgood
          exact hnames ⟨hslot, by tauto⟩
        rw [hothers _ hslot]
        exact .inr rfl

theorem outcome_sendFirst (h : Meeting a b toTid s) (hnil : fromTid.isNilthread = false)
    (ht : sendFirst a b toTid aFrom fromTid s = .ok ((), t)) :
    t.outcome a b =
      if fromTid.isAnythread ∨ fromTid.isAnylocalthread ∨ s.ReceivesFrom a b fromTid then
        some (s.senderId a b) else none := by
  obtain ⟨⟨⟩, u, hu, ht⟩ := bind_eq_ok.mp (switchTo_bind ht)
  obtain ⟨⟨⟩, v, hv, ht⟩ := bind_eq_ok.mp (switchTo_bind ht)
  have hident : (u.dispatch b).ident = s.ident := keepsIdent_sysIpc (s.dispatch a) _ u hu
  have hsend := wp_ok (wp_send (s := s.dispatch a) h.ne rfl h.tcb h.global h.notNil h.runningA) hu
  have hwait : waitsFor ((s.dispatch a).tcb a) ((s.dispatch a).tcb b)
      ((s.dispatch a).senderId a b) = false := by
    simp [waitsFor, KState.dispatch, h.runningB, ThreadState.isWaiting]
  rw [hwait, if_neg (by simp)] at hsend
  have hpolls : Polls a b toTid aFrom (s.senderId a b) s (u.dispatch b) :=
    ⟨hsend.state, hsend.partner, hsend.frame, hsend.others, hsend.queue⟩
  have hrecv := wp_ok (wp_receive (s := u.dispatch b) (b := b) rfl hnil) hv
  have hsel := hpolls.select fromTid h hident
  have hend : (if v.currentTcb = a then resume else pure ()) v = .ok ((), t) := ht
  split
  · rename_i hc
    rw [if_pos hc] at hsel
    rw [hsel] at hrecv
    rw [if_pos hrecv.current] at hend
    obtain ⟨rest, hframe⟩ := hpolls.frame
    have htold := wp_ok (wp_resume_told h.ne h.tcb hrecv.current hrecv.state
      ((hrecv.stack h.ne).trans hframe)) hend
    exact htold.outcome
  · rename_i hc
    rw [if_neg hc] at hsel
    have hidle : a ≠ .idle := by
      rw [← h.sender]
      exact nofun
    have hstop : v.currentTcb ≠ a ∧ (v.tcb a).state = .polling := by
      rcases hsel with hsel | hsel
      · rw [hsel] at hrecv
        refine ⟨fun hcur => h.ne ?_, (hrecv.2 a).1.trans hpolls.state⟩
        rw [← hcur, hrecv.1]
        rfl
      · rw [hsel] at hrecv
        refine ⟨fun hcur => hidle ?_, (congrArg Tcb.state (hrecv.others a h.ne)).trans hpolls.state⟩
        rw [← hcur, hrecv.current]
    rw [if_neg hstop.1] at hend
    cases hend
    rw [KState.outcome, if_pos hstop.2]

/-- A send and a receive with infinite timeouts have the same outcome in both orders just if both
sides decide alike whether the message is one the receiver asks for. -/
theorem outcome_eq_iff {t' : KState} (h : Meeting a b toTid s)
    (hnil : fromTid.isNilthread = false)
    (hsend : sendFirst a b toTid aFrom fromTid s = .ok ((), t))
    (hrecv : receiveFirst a b toTid aFrom fromTid s = .ok ((), t')) :
    t.outcome a b = t'.outcome a b ↔ s.OrderFree a b fromTid := by
  rw [outcome_sendFirst h hnil hsend, outcome_receiveFirst h hnil hrecv, KState.OrderFree]
  by_cases hany : fromTid.isAnythread
  · simp [hany]
  · by_cases hloc : fromTid.isAnylocalthread
    · have hne : fromTid ≠ s.senderId a b := by
        intro heq
        have hid := h.senderId_global
        rw [← heq] at hid
        exact h.ids _ (hid.trans (by simpa [ThreadId.isAnylocalthread] using hloc))
      simp [hany, hloc, hne]
    · simp only [hany, hloc]
      by_cases hnames : s.ReceivesFrom a b fromTid <;> by_cases hsid : fromTid = s.senderId a b
      all_goals simp [hnames, hsid]

/-! ## A sample meeting -/

def sampleSender : TcbPtr := getTcb (sampleTid 0)

def sampleReceiver : TcbPtr := getTcb (sampleTid 1)

/-- Two running threads in two spaces. -/
def KState.meeting : KState :=
  let s := KState.zero .sample
  { s with
    tcb := fun p =>
      if p = sampleSender then
        { Tcb.zero with
          myselfGlobal := sampleTid 0, utcb := some (.user 0), space := some (.heap 0)
          state := .running }
      else if p = sampleReceiver then
        { Tcb.zero with
          myselfGlobal := sampleTid 1, utcb := some (.user 1024), space := some (.heap 4096)
          state := .running }
      else s.tcb p
    utcb := fun _ => .zero }

theorem meeting_sample : Meeting sampleSender sampleReceiver (sampleTid 1) .meeting := by
  have hsender : (KState.meeting.tcb sampleSender).myselfGlobal = sampleTid 0 := by decide
  have hreceiver : (KState.meeting.tcb sampleReceiver).myselfGlobal = sampleTid 1 := by decide
  have hids : ∀ x, (KState.meeting.tcb x).myselfGlobal ≠ .anylocalthread ∧
      (KState.meeting.tcb x).state.isPolling = false := by
    intro x
    simp only [KState.meeting]
    split
    · decide
    · split
      · decide
      · exact ⟨show ThreadId.nilthread ≠ .anylocalthread by decide, rfl⟩
  refine ⟨by decide, rfl, hreceiver, by decide, by rw [hsender]; rfl, by decide, by decide,
    fun x => (hids x).1, by decide, fun x => ?_⟩
  rw [pollsOn, (hids x).2, Bool.false_and]

theorem exists_ok {α : Type} {x : Kernel α} (h : (x s).isOk = true) : ∃ r t, x s = .ok (r, t) := by
  cases hx : x s with
  | error e =>
    rw [hx] at h
    cases h
  | ok q => exact ⟨q.1, q.2, rfl⟩

/-- An open receive. -/
theorem exists_outcome_eq :
    ∃ t t', sendFirst sampleSender sampleReceiver (sampleTid 1) .nilthread .anythread .meeting =
        .ok ((), t) ∧
      receiveFirst sampleSender sampleReceiver (sampleTid 1) .nilthread .anythread .meeting =
        .ok ((), t') ∧
      t.outcome sampleSender sampleReceiver = t'.outcome sampleSender sampleReceiver := by
  obtain ⟨⟨⟩, t, ht⟩ := exists_ok (s := .meeting) (x := sendFirst sampleSender sampleReceiver
    (sampleTid 1) .nilthread .anythread) (by decide +kernel)
  obtain ⟨⟨⟩, t', ht'⟩ := exists_ok (s := .meeting) (x := receiveFirst sampleSender sampleReceiver
    (sampleTid 1) .nilthread .anythread) (by decide +kernel)
  refine ⟨t, t', ht, ht', (outcome_eq_iff meeting_sample (by decide) ht ht').mpr ?_⟩
  rw [KState.OrderFree, if_pos (by decide)]
  trivial

/-- A receive from any local thread, and a sender of another space: the receiver takes the message
only if it comes second. -/
theorem exists_outcome_ne :
    ∃ t t', sendFirst sampleSender sampleReceiver (sampleTid 1) .nilthread .anylocalthread
        .meeting = .ok ((), t) ∧
      receiveFirst sampleSender sampleReceiver (sampleTid 1) .nilthread .anylocalthread .meeting =
        .ok ((), t') ∧
      t.outcome sampleSender sampleReceiver ≠ t'.outcome sampleSender sampleReceiver := by
  obtain ⟨⟨⟩, t, ht⟩ := exists_ok (s := .meeting) (x := sendFirst sampleSender sampleReceiver
    (sampleTid 1) .nilthread .anylocalthread) (by decide +kernel)
  obtain ⟨⟨⟩, t', ht'⟩ := exists_ok (s := .meeting) (x := receiveFirst sampleSender sampleReceiver
    (sampleTid 1) .nilthread .anylocalthread) (by decide +kernel)
  refine ⟨t, t', ht, ht', ?_⟩
  rw [outcome_sendFirst meeting_sample (by decide) ht,
    outcome_receiveFirst meeting_sample (by decide) ht', if_pos (by decide), if_neg (by decide)]
  exact nofun

end L4Thread
