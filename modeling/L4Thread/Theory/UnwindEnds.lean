import L4Thread.Theory.ControlFrame

/-!
# The end of unwinding

`unwind` goes round at most once more, for the frame that `restore_state` brings back. The thread
gives up its timeout in a round at a polling or waiting thread, and its place in a send queue in a
round at a polling one. A thread that was selected by its receiver is no longer polling, and is
still linked in the receiver's queue.
-/

namespace L4Thread

open TrapM Kernel Ring

variable {s t r : KState} {p q : TcbPtr} {Q : Queues} {tag : MsgTag} {reason : UnwindReason}
  {W : Prop} {F : TcbPtr → Prop} {α : Type}

/-! ## Rounds -/

/-- `unwind` from `redo_unwind` to a return, or to the jump back with the tag it keeps. -/
def Kernel.unwindRound (p : TcbPtr) (reason : UnwindReason) (tag : MsgTag) :
    Kernel (Option MsgTag) := do
  let cstate ← getState p
  setState p .running
  let partner ← getPartnerTcb p
  let nested := !(← readTcb p).savedPartner.isNilthread
  if cstate.isPolling ∨ cstate.isWaiting then
    cancelTimeout p
    if cstate.isPolling then dequeueSend p partner
    let tag := if cstate.isPolling then tag else .errorTag
    if nested then
      restoreState p
      pure (some tag)
    else
      let err := if reason = .timeout then errIpcTimeout else errIpcCanceled
      setIpcError p tag.setError (if cstate.isPolling then ipcSndError err else ipcRcvError err)
      pure none
  else if cstate = .waitingTunneledPf then
    let (errS, errR) ← calculateErrorcodes reason p partner
    abortPartner partner tag.setError errR
    setIpcError p tag.setError errS
    pure none
  else if cstate = .lockedRunningIpcDone then
    restoreState p
    pure (some tag)
  else if cstate = .lockedRunning then
    let (errS, errR) ← calculateErrorcodes reason p partner
    let d ← readTcb partner
    if d.state = .lockedWaiting ∧ d.partner = (← readTcb p).myselfGlobal then
      abortPartner partner tag.setError errR
    if nested then
      restoreState p
      pure (some tag.setError)
    else
      setIpcError p tag.setError errS
      pure none
  else if cstate = .lockedRunningNested then
    let (errS, errR) ← calculateErrorcodes reason partner p
    if (← getState partner) = .waitingTunneledPf then
      abortPartner partner tag.setError errS
    setIpcError p tag.setError errR
    pure none
  else if cstate = .lockedWaiting then
    let (errS, errR) ← calculateErrorcodes reason partner p
    if (← getState partner) = .lockedRunning then
      abortPartner partner tag.setError errS
    if nested then
      restoreState p
      pure (some tag.setError)
    else
      setIpcError p tag.setError errR
      pure none
  else pure none

theorem bind_done (x : Kernel Unit) : (x >>= fun _ => (pure () : Kernel Unit)) = x := by
  funext s
  rw [bind_apply]
  rcases x s with _ | ⟨_, _⟩ <;> rfl

/-- The loop is made of rounds. -/
theorem unwindLoop_succ (n : Nat) :
    unwindLoop p reason (n + 1) tag = (unwindRound p reason tag >>= fun o =>
      match o with
      | some tag => unwindLoop p reason n tag
      | none => pure ()) := by
  simp only [unwindLoop, unwindRound, setIpcError, bind_bind, ite_bind, TrapM.pure_bind, bind_done]

/-- The round ends with `restore_state`. -/
def Tcb.redoes (c : Tcb) : Bool :=
  match c.state with
  | .lockedRunningIpcDone => true
  | .polling | .waitingForever | .waitingTimeout | .lockedRunning | .lockedWaiting =>
    !c.savedPartner.isNilthread
  | _ => false

theorem Tcb.redoes_eq_false {c : Tcb} (hst : c.state ≠ .lockedRunningIpcDone)
    (hnil : c.savedPartner.isNilthread) : c.redoes = false := by
  unfold redoes
  split
  · exact absurd ‹_› hst
  all_goals simp [hnil]

/-- Where the thread is queued: in the wakeup queue, and in the send queues of some threads. -/
def InQueues (p : TcbPtr) (W : Prop) (F : TcbPtr → Prop) (s : KState) : Prop :=
  ∃ R, Placed p R W F s

section InQueues

theorem InQueues.congr {W' : Prop} {F' : TcbPtr → Prop} (hW : W ↔ W') (hF : ∀ q, F q ↔ F' q)
    (h : InQueues p W F s) : InQueues p W' F' s := by
  obtain ⟨R, Q, hQ, hR, hw, hf⟩ := h
  exact ⟨R, Q, hQ, hR, hw.trans hW, fun q => (hf q).trans (hF q)⟩

theorem InQueues.avoids_wakeup_iff (h : InQueues p W F s) :
    Avoids s.waitList s.wakeupList p ↔ ¬W := by
  obtain ⟨R, Q, hQ, hR, hW, hF⟩ := h
  rw [hQ.wakeup.avoids_iff, hW]

theorem InQueues.avoids_send_iff (h : InQueues p W F s) :
    (∀ o, Avoids s.sendList (s.tcb o).sendHead p) ↔ ∀ o, ¬F o := by
  obtain ⟨R, Q, hQ, hR, hW, hF⟩ := h
  exact forall_congr' fun o => by rw [(hQ.send.ring o).avoids_iff, hF]

theorem preservesInQueues_of_keeps {x : Kernel α} (hx : KeepsQueues x) :
    Preserves (InQueues p W F) x := fun s a t ⟨R, h⟩ hs =>
  ⟨R, preservesPlaced_of_keeps hx s a t h hs⟩

end InQueues

/-! ## Queue links -/

/-- The trap is no access through a null queue link. -/
abbrev NoLink (e : Trap) : Prop := e ≠ .nullLink

abbrev Linked (x : Kernel α) : Prop := Throws NoLink x

theorem linked_modUtcb {f : Utcb → Utcb} : Linked (modUtcb p f) := by
  refine .bind (.bind (.gets _) fun c => ?_) fun _ => .modify _
  split
  · exact .pure _
  · exact .trap (by decide)

theorem linked_readUtcb : Linked (readUtcb p) := by
  refine .bind (.bind (.gets _) fun c => ?_) fun _ => .gets _
  split
  · exact .pure _
  · exact .trap (by decide)

theorem linked_setIpcError {err : Word} : Linked (setIpcError p tag err) := by
  unfold setIpcError setTag setMr setErrorCode
  exact .bind linked_modUtcb fun _ => linked_modUtcb

theorem linked_restoreState : Linked (restoreState p) := by
  unfold restoreState restoreRegisters setErrorCode
  refine .bind (.bind (.gets _) fun _ => linked_modUtcb) fun _ => .bind (.modify _) fun _ => ?_
  exact .bind (.gets _) fun _ => .bind linked_modUtcb fun _ => .modify _

theorem linked_absoluteTime {x : Time} : Linked (absoluteTime x) := by
  unfold absoluteTime
  split
  · exact .trap (by decide)
  · split
    · exact .pure _
    · exact .bind (.gets _) fun _ => .pure _

theorem linked_calculateErrorcodes {a b : TcbPtr} : Linked (calculateErrorcodes reason a b) := by
  unfold calculateErrorcodes
  refine .bind (.gets _) fun c => ?_
  cases reason with
  | abort => exact .pure _
  | timeout =>
    refine .bind linked_readUtcb fun _ => .bind linked_readUtcb fun _ => .bind ?_ fun r => ?_
    · exact .bind linked_absoluteTime fun _ => .bind linked_absoluteTime fun _ => .pure _
    · split
      · exact .pure _
      · exact .pure _

theorem guardsInQueues_abortPartner {err : Word} :
    Guards NoLink (InQueues p W F) (abortPartner q tag err) := by
  unfold abortPartner setErrorCode setTag setMr setState notify pushFrame
  refine .bind (.of_throws linked_modUtcb (preservesInQueues_of_keeps keepsQueues_modUtcb))
    fun _ => ?_
  refine .bind (.of_throws linked_modUtcb (preservesInQueues_of_keeps keepsQueues_modUtcb))
    fun _ => ?_
  refine .bind (.of_throws (.modify _) (preservesInQueues_of_keeps (keepsQueues_modTcb fun _ =>
    rfl))) fun _ => ?_
  refine .bind (.of_throws (.modify _) (preservesInQueues_of_keeps (keepsQueues_modTcb fun _ =>
    rfl))) fun _ => ?_
  rintro s ⟨R, Q, hQ, hR, hW, hF⟩
  refine wp_mono (wp_enqueueReady_queues hQ) ?_
  rintro _ t ⟨ready, ht, hmem⟩
  exact ⟨fun n => p ∈ ready n, _, ht, fun _ => .rfl, hW, hF⟩

/-- What a round leaves: the places the thread keeps, and its frame, which is taken or kept. -/
structure AfterRound (p : TcbPtr) (W : Prop) (F : TcbPtr → Prop) (c : Tcb) (o : Option MsgTag)
    (r : KState) : Prop where
  queues : InQueues p W F r
  redo : c.redoes → o.isSome ∧ (r.tcb p).state = c.savedState ∧
    (r.tcb p).partner = c.savedPartner ∧ r.saved p = (.aborted, .nilthread)
  done : c.redoes = false → o = none ∧ r.saved p = (c.savedState, c.savedPartner)

/-- The end of a round with a jump back. -/
theorem wp_restore_round {u : KState} {tag' : MsgTag} (hredo : (s.tcb p).redoes = true)
    (hu : InQueues p W F u ∧ u.saved p = s.saved p) :
    wp NoLink (do restoreState p; pure (some tag'))
      (fun o r => AfterRound p W F (s.tcb p) o r) u := by
  rw [wp_bind]
  refine linked_restoreState.wp ?_
  rw [wp_iff_ok]
  intro _ r hr
  obtain ⟨hst, hpt⟩ := Prod.mk.inj hu.2
  have hrest := wp_iff_ok.mp wp_restoreState_restored _ _ hr
  refine ⟨preservesInQueues_of_keeps keepsQueues_restoreState u _ r hu.1 hr, fun _ => ?_, ?_⟩
  · exact ⟨rfl, hrest.state.trans hst, hrest.partner.trans hpt,
      Prod.ext hrest.savedState hrest.savedPartner⟩
  · rw [hredo]
    exact nofun

/-- The end of a round with a return. -/
theorem wp_return_round {u : KState} {tag' : MsgTag} {err : Word} (hredo : (s.tcb p).redoes = false)
    (hu : InQueues p W F u ∧ u.saved p = s.saved p) :
    wp NoLink (do setIpcError p tag' err; pure none)
      (fun o r => AfterRound p W F (s.tcb p) o r) u := by
  rw [wp_bind]
  refine linked_setIpcError.wp ?_
  rw [wp_iff_ok]
  intro _ r hr
  have hkeep : Keeps (KState.saved p) (setIpcError p tag' err) := by
    unfold setIpcError setTag setMr setErrorCode
    exact .bind keepsSaved_modUtcb fun _ => keepsSaved_modUtcb
  refine ⟨preservesInQueues_of_keeps keepsQueues_setIpcError u _ r hu.1 hr, ?_, fun _ => ?_⟩
  · rw [hredo]
    exact nofun
  · exact ⟨rfl, (hkeep u _ r hr).trans hu.2⟩

/-- A round takes a polling or waiting thread out of the wakeup queue, and a polling one out of the
send queue of its partner. -/
theorem wp_unwindRound (h : InQueues p W F s)
    (hpoll : (s.tcb p).state.isPolling → F (getTcb (s.tcb p).partner)) :
    wp NoLink (unwindRound p reason tag) (fun o r =>
      AfterRound p (W ∧ ¬((s.tcb p).state.isPolling ∨ (s.tcb p).state.isWaiting))
        (fun q => F q ∧ ¬(s.tcb p).state.isPolling) (s.tcb p) o r) s := by
  simp only [unwindRound, getState, getPartnerTcb, wp_bind, wp_readTcb, wp_pure]
  refine Throws.wp (.modify _) ?_
  rw [wp_iff_ok]
  intro _ r hset
  have hrp : r.tcb p = { s.tcb p with state := .running } := by
    cases hset
    simp
  have hkeep : KeepsQueues (setState p .running) := keepsQueues_modTcb fun _ => rfl
  have hr : InQueues p W F r ∧ r.saved p = s.saved p := by
    refine ⟨preservesInQueues_of_keeps hkeep s _ r h hset, ?_⟩
    simp [KState.saved, hrp]
  have habort : ∀ {x : TcbPtr} {tag' : MsgTag} {err : Word},
      wp NoLink (abortPartner x tag' err)
        (fun _ u => InQueues p W F u ∧ u.saved p = s.saved p) r := by
    intro x tag' err
    refine wp_and (guardsInQueues_abortPartner r hr.1) (wp_iff_ok.mpr fun _ u hu => ?_)
    exact (keepsSaved_abortWith r _ u hu).trans hr.2
  have hleave : ∀ {u : KState}, InQueues p W F u ∧ u.saved p = s.saved p →
      wp NoLink (cancelTimeout p)
        (fun _ v => InQueues p False F v ∧ v.saved p = s.saved p) u := by
    rintro u ⟨⟨R, hu⟩, hsaved⟩
    refine wp_and (wp_mono (wp_cancelTimeout_placed hu) fun _ v hv => ⟨R, hv⟩)
      (wp_iff_ok.mpr fun _ v hv => ?_)
    exact (keepsSaved_of_ipc (keepsIpc_of_core keepsCore_cancelTimeout) u _ v hv).trans hsaved
  -- The end of the rounds that may be followed by another one.
  have hlast : ∀ {W' F' u tag' tag'' err}, (s.tcb p).redoes = !(s.tcb p).savedPartner.isNilthread →
      InQueues p W' F' u ∧ u.saved p = s.saved p →
      wp NoLink (if (!(s.tcb p).savedPartner.isNilthread) = true then do
          restoreState p
          pure (some tag')
        else do
          setIpcError p tag'' err
          pure none) (fun o r => AfterRound p W' F' (s.tcb p) o r) u := by
    intro W' F' u _ _ _ hredo hu
    split
    · rename_i hnest
      exact wp_restore_round (hredo.trans hnest) hu
    · rename_i hnest
      exact wp_return_round (hredo.trans (Bool.not_eq_true _ ▸ hnest)) hu
  rw [hrp]
  cases hst : (s.tcb p).state with
  | zero | running | halted | aborted =>
    simp +decide only [ite_false]
    refine ⟨hr.1.congr (by simp) fun q => by simp, ?_, fun _ => ⟨rfl, hr.2⟩⟩
    simp [Tcb.redoes, hst]
  | lockedRunningIpcDone =>
    simp +decide only [ite_true, ite_false]
    exact wp_restore_round (by simp [Tcb.redoes, hst]) ⟨hr.1.congr (by simp) fun q => by simp, hr.2⟩
  | lockedRunning =>
    simp +decide only [ite_true, ite_false, wp_bind]
    refine linked_calculateErrorcodes.wp (wp_calculateErrorcodes fun _ _ _ _ => ?_)
    rw [wp_readTcb, wp_readTcb, wp_ite]
    have hredo : (s.tcb p).redoes = !(s.tcb p).savedPartner.isNilthread := by
      simp [Tcb.redoes, hst]
    split
    · rw [wp_bind]
      exact wp_mono habort fun _ _ h => hlast hredo ⟨h.1.congr (by simp) fun q => by simp, h.2⟩
    · exact hlast hredo ⟨hr.1.congr (by simp) fun q => by simp, hr.2⟩
  | lockedWaiting =>
    simp +decide only [ite_true, ite_false, wp_bind]
    refine linked_calculateErrorcodes.wp (wp_calculateErrorcodes fun _ _ _ _ => ?_)
    rw [wp_readTcb, wp_pure, wp_ite]
    have hredo : (s.tcb p).redoes = !(s.tcb p).savedPartner.isNilthread := by
      simp [Tcb.redoes, hst]
    split
    · rw [wp_bind]
      exact wp_mono habort fun _ _ h => hlast hredo ⟨h.1.congr (by simp) fun q => by simp, h.2⟩
    · exact hlast hredo ⟨hr.1.congr (by simp) fun q => by simp, hr.2⟩
  | lockedRunningNested =>
    simp +decide only [ite_true, ite_false, wp_bind]
    refine linked_calculateErrorcodes.wp (wp_calculateErrorcodes fun _ _ _ _ => ?_)
    rw [wp_readTcb, wp_pure, wp_ite]
    have hredo : (s.tcb p).redoes = false := by simp [Tcb.redoes, hst]
    split
    · rw [wp_bind]
      exact wp_mono habort fun _ _ h =>
        wp_return_round hredo ⟨h.1.congr (by simp) fun q => by simp, h.2⟩
    · exact wp_return_round hredo ⟨hr.1.congr (by simp) fun q => by simp, hr.2⟩
  | waitingTunneledPf =>
    simp +decide only [ite_true, ite_false, wp_bind]
    refine linked_calculateErrorcodes.wp (wp_calculateErrorcodes fun _ _ _ _ => ?_)
    have hredo : (s.tcb p).redoes = false := by simp [Tcb.redoes, hst]
    refine wp_mono habort fun _ _ h => ?_
    rw [← wp_bind]
    exact wp_return_round hredo ⟨h.1.congr (by simp) fun q => by simp, h.2⟩
  | waitingForever | waitingTimeout =>
    simp +decide only [ite_true, ite_false]
    rw [wp_bind]
    have hredo : (s.tcb p).redoes = !(s.tcb p).savedPartner.isNilthread := by
      simp [Tcb.redoes, hst]
    refine wp_mono (hleave hr) fun _ u hu => hlast hredo ⟨?_, hu.2⟩
    exact hu.1.congr (by simp +decide) fun q => by simp +decide
  | polling =>
    simp +decide only [ite_true, ite_false]
    rw [wp_bind]
    have hredo : (s.tcb p).redoes = !(s.tcb p).savedPartner.isNilthread := by
      simp [Tcb.redoes, hst]
    refine wp_mono (hleave hr) fun _ u hu => ?_
    rw [wp_bind]
    obtain ⟨⟨R, hu⟩, hsaved⟩ := hu
    have hF := hpoll (by rw [hst]; rfl)
    refine wp_mono (wp_and (wp_dequeueSend_placed hu hF) (wp_iff_ok.mpr fun _ v hv => ?_))
      fun _ v hv => hlast hredo ⟨⟨R, ?_⟩, hv.2⟩
    · exact (keepsSaved_of_ipc keepsIpc_dequeueSend u _ v hv).trans hsaved
    · simpa +decide using hv.1

/-! ## Transfer timeouts -/

/-- The comparison of the transfer timeouts of the two parties is not implemented for these. -/
def KState.PointTimeout (s : KState) (reason : UnwindReason) (snd rcv : TcbPtr) : Prop :=
  reason = .timeout ∧
    ((s.utcbOf snd).xferTimeout.getSnd.isPoint ∨ (s.utcbOf rcv).xferTimeout.getRcv.isPoint)

/-- A round at `p` in this state with this partner compares such timeouts. -/
def KState.HangsAt (s : KState) (p : TcbPtr) (reason : UnwindReason) (st : ThreadState)
    (partner : ThreadId) : Prop :=
  match st with
  | .waitingTunneledPf | .lockedRunning => s.PointTimeout reason p (getTcb partner)
  | .lockedRunningNested | .lockedWaiting => s.PointTimeout reason (getTcb partner) p
  | _ => False

def KState.xferTimeouts (s : KState) (p : TcbPtr) : Timeout := (s.utcbOf p).xferTimeout

theorem KState.HangsAt.congr {st : ThreadState} {partner : ThreadId}
    (h : t.xferTimeouts = s.xferTimeouts) :
    t.HangsAt p reason st partner ↔ s.HangsAt p reason st partner := by
  have hq : ∀ q, (t.utcbOf q).xferTimeout = (s.utcbOf q).xferTimeout := fun q => congrFun h q
  simp only [HangsAt, PointTimeout, hq]

/-- A computation that neither hangs nor changes a transfer timeout. -/
structure Plain (x : Kernel α) : Prop where
  throws : Quiet x
  keeps : Keeps KState.xferTimeouts x

theorem Plain.wp {x : Kernel α} {E : Trap → Prop} (hE : ∀ e, e ≠ .hang → E e) (hx : Plain x)
    (hs : s.xferTimeouts = t.xferTimeouts) :
    wp E x (fun _ r => r.xferTimeouts = t.xferTimeouts) s := by
  have hthrows : Throws E x := fun s e h => hE e (hx.throws s e h)
  exact hthrows.wp (hx.keeps.wp fun _ r hr => hr.trans hs)

section Plain

theorem plain_pure {a : α} : Plain (pure a : Kernel α) := ⟨.pure a, .pure a⟩

theorem plain_bind {β : Type} {x : Kernel α} {f : α → Kernel β} (hx : Plain x)
    (hf : ∀ a, Plain (f a)) : Plain (x >>= f) :=
  ⟨.bind hx.throws fun a => (hf a).throws, .bind hx.keeps fun a => (hf a).keeps⟩

theorem plain_gets {g : KState → α} : Plain (gets g) := ⟨.gets g, .gets g⟩

theorem plain_ite {c : Prop} [Decidable c] {x y : Kernel α} (hx : Plain x) (hy : Plain y) :
    Plain (if c then x else y) := by
  split
  · exact hx
  · exact hy

theorem plain_ofLinks {o : Option α} : Plain (ofLinks o) := by
  refine ⟨quiet_ofLinks, ?_⟩
  cases o with
  | none => exact .trap _
  | some a => exact .pure a

theorem plain_modTcb {f : Tcb → Tcb} (h : ∀ c, (f c).utcb = c.utcb) : Plain (modTcb p f) := by
  refine ⟨.modify _, .modify fun s => funext fun q => ?_⟩
  have hq : (Function.update s.tcb p (f (s.tcb p)) q).utcb = (s.tcb q).utcb := by
    rcases eq_or_ne q p with rfl | hne
    · simp [h]
    · simp [hne]
  simp only [KState.xferTimeouts, KState.utcbOf, hq]

/-- What is set outside the TCBs and the UTCBs. -/
theorem plain_modify {f : KState → KState} (h : ∀ s, (f s).tcb = s.tcb ∧ (f s).utcb = s.utcb) :
    Plain (modify f) := by
  refine ⟨.modify _, .modify fun s => funext fun q => ?_⟩
  simp only [KState.xferTimeouts, KState.utcbOf, (h s).1, (h s).2]

theorem plain_modUtcb {f : Utcb → Utcb} (h : ∀ u, (f u).xferTimeout = u.xferTimeout) :
    Plain (modUtcb p f) := by
  refine ⟨quiet_modUtcb, fun s _ t hs => funext fun q => ?_⟩
  have hwp : wp (fun _ => True) (modUtcb p f)
      (fun _ r => (r.utcbOf q).xferTimeout = (s.utcbOf q).xferTimeout) s := by
    refine wp_modUtcb.mpr ⟨fun _ => trivial, fun u _ => ?_⟩
    simp only [KState.utcbOf]
    split
    · rename_i v _
      rcases eq_or_ne v u with rfl | hne
      · simp [h]
      · simp [hne]
    · rfl
  exact wp_iff_ok.mp hwp _ t hs

theorem plain_cancelTimeout : Plain (cancelTimeout p) := by
  unfold cancelTimeout setWakeup setWakeupList
  refine plain_bind plain_gets fun c => plain_ite ?_ plain_pure
  refine plain_bind plain_gets fun _ => plain_bind plain_ofLinks fun _ => ?_
  exact plain_bind (plain_modify fun _ => ⟨rfl, rfl⟩) fun _ => plain_modTcb fun _ => rfl

theorem plain_dequeueSend : Plain (dequeueSend p q) := by
  unfold dequeueSend setSendQueue setSend setSendLinks
  refine plain_bind plain_gets fun _ => plain_bind plain_ofLinks fun _ => ?_
  refine plain_bind (plain_bind (plain_modTcb fun _ => rfl) fun _ => ?_) fun _ => ?_
  · exact plain_modify fun _ => ⟨rfl, rfl⟩
  · exact plain_modTcb fun _ => rfl

theorem plain_enqueueReady {b : Bool} : Plain (enqueueReady p b) := by
  unfold enqueueReady setReady setReadyQueue setMaxPrio
  refine plain_bind plain_gets fun c => plain_ite plain_pure ?_
  refine plain_bind plain_gets fun _ => plain_bind plain_ofLinks fun _ => ?_
  refine plain_bind (plain_modify fun _ => ⟨rfl, rfl⟩) fun _ => ?_
  exact plain_bind (plain_modTcb fun _ => rfl) fun _ => plain_modify fun _ => ⟨rfl, rfl⟩

theorem plain_setIpcError {err : Word} : Plain (setIpcError p tag err) := by
  unfold setIpcError setTag setMr setErrorCode
  exact plain_bind (plain_modUtcb fun _ => rfl) fun _ => plain_modUtcb fun _ => rfl

theorem plain_abortPartner {err : Word} : Plain (abortPartner p tag err) := by
  unfold abortPartner setErrorCode setTag setMr setState notify pushFrame
  refine plain_bind (plain_modUtcb fun _ => rfl) fun _ => ?_
  refine plain_bind (plain_modUtcb fun _ => rfl) fun _ => ?_
  refine plain_bind (plain_modTcb fun _ => rfl) fun _ => ?_
  exact plain_bind (plain_modTcb fun _ => rfl) fun _ => plain_enqueueReady

theorem plain_restoreState : Plain (restoreState p) := by
  unfold restoreState restoreRegisters setErrorCode
  refine plain_bind (plain_bind plain_gets fun _ => plain_modUtcb fun _ => rfl) fun _ => ?_
  refine plain_bind (plain_modTcb fun _ => rfl) fun _ => plain_bind plain_gets fun _ => ?_
  exact plain_bind (plain_modUtcb fun _ => rfl) fun _ => plain_modTcb fun _ => rfl

/-- The end of a round, with its two ways out. -/
theorem plain_restore_round : Plain (do restoreState p; pure (some tag)) :=
  plain_bind plain_restoreState fun _ => plain_pure

theorem plain_return_round {err : Word} :
    Plain (do setIpcError p tag err; pure (none : Option MsgTag)) :=
  plain_bind plain_setIpcError fun _ => plain_pure

end Plain

theorem wp_absoluteTime_hang {x : Time} {P : Prop} {R : Word → KState → Prop}
    (hE : x.isPoint → P) (hR : x.isPoint = false → ∀ a, R a s) :
    wp (fun e => e = .hang → P) (absoluteTime x) R s := by
  unfold absoluteTime
  cases hx : x.isPoint with
  | true =>
    rw [if_pos rfl]
    exact fun _ => hE hx
  | false =>
    rw [if_neg nofun, wp_ite]
    split
    · exact hR hx _
    · exact hR hx _

/-- The error codes are found unless the timeouts cannot be compared. -/
theorem wp_calculateErrorcodes_hang {a b : TcbPtr} :
    wp (fun e => e = .hang → s.PointTimeout reason a b) (calculateErrorcodes reason a b)
      (fun _ r => ¬s.PointTimeout reason a b ∧ r = s) s := by
  simp only [calculateErrorcodes, wp_bind, wp_readTcb]
  cases reason with
  | abort => exact ⟨(by cases ·.1), rfl⟩
  | timeout =>
    rw [wp_bind, wp_readUtcb]
    refine ⟨fun _ he => absurd he (by decide), fun u hu => ?_⟩
    rw [wp_bind, wp_readUtcb]
    refine ⟨fun _ he => absurd he (by decide), fun v hv => ?_⟩
    have hpoint : s.PointTimeout .timeout a b ↔
        (s.utcb u).xferTimeout.getSnd.isPoint ∨ (s.utcb v).xferTimeout.getRcv.isPoint := by
      simp [KState.PointTimeout, KState.utcbOf_eq hu, KState.utcbOf_eq hv]
    rw [wp_bind, timeLt, wp_bind, hpoint]
    refine wp_absoluteTime_hang .inr fun hrcv x => ?_
    rw [wp_bind]
    refine wp_absoluteTime_hang .inl fun hsnd y => ?_
    simp only [wp_pure]
    split <;> exact ⟨by simp [hrcv, hsnd], rfl⟩

/-- A round hangs, or does not return, where it cannot compare the timeouts. -/
theorem wp_unwindRound_hang :
    wp (fun e => e = .hang → s.HangsAt p reason (s.tcb p).state (s.tcb p).partner)
      (unwindRound p reason tag) (fun _ r =>
        ¬s.HangsAt p reason (s.tcb p).state (s.tcb p).partner ∧
          r.xferTimeouts = s.xferTimeouts) s := by
  have hplain : ∀ {P : Prop} {β : Type} {x : Kernel β} {u : KState}, Plain x →
      u.xferTimeouts = s.xferTimeouts →
      wp (fun e => e = .hang → P) x (fun _ r => r.xferTimeouts = s.xferTimeouts) u :=
    fun hx hu => hx.wp (fun _ h1 h2 => absurd h2 h1) hu
  have hend : ∀ {P : Prop} {x : Kernel (Option MsgTag)} {u : KState}, Plain x → ¬P →
      u.xferTimeouts = s.xferTimeouts →
      wp (fun e => e = .hang → P) x (fun _ r => ¬P ∧ r.xferTimeouts = s.xferTimeouts) u :=
    fun hx hP hu => wp_mono (hplain hx hu) fun _ _ h => ⟨hP, h⟩
  have hlast : ∀ {c : Bool} {tag' tag'' : MsgTag} {err : Word},
      Plain (if c = true then do restoreState p; pure (some tag')
        else do setIpcError p tag'' err; pure none) :=
    plain_ite plain_restore_round plain_return_round
  simp only [unwindRound, getState, getPartnerTcb, wp_bind, wp_readTcb, wp_pure]
  have hset : Plain (setState p .running) := plain_modTcb fun _ => rfl
  refine wp_mono (wp_and (hplain hset rfl) (wp_iff_ok.mpr fun _ r hr => hr)) fun _ r hr => ?_
  obtain ⟨hr, hrun⟩ := hr
  have hrp : r.tcb p = { s.tcb p with state := .running } := by
    cases hrun
    simp
  have hcalc : ∀ {a b : TcbPtr} {R : Word × Word → KState → Prop},
      (¬s.PointTimeout reason a b → ∀ e, R e r) →
      wp (fun e => e = .hang → s.PointTimeout reason a b) (calculateErrorcodes reason a b) R r := by
    intro a b R hR
    have hq : ∀ q, (r.utcbOf q).xferTimeout = (s.utcbOf q).xferTimeout := fun q => congrFun hr q
    have hpoint : r.PointTimeout reason a b ↔ s.PointTimeout reason a b := by
      simp only [KState.PointTimeout, hq]
    rw [← hpoint]
    rw [← hpoint] at hR
    exact wp_mono wp_calculateErrorcodes_hang fun e u hu => hu.2 ▸ hR hu.1 e
  rw [hrp]
  cases hst : (s.tcb p).state with
  | zero | running | halted | aborted =>
    simp +decide only [ite_false]
    exact ⟨fun h => h, hr⟩
  | lockedRunningIpcDone =>
    simp +decide only [ite_true, ite_false]
    exact hend plain_restore_round (fun h => h) hr
  | lockedRunning =>
    simp +decide only [ite_true, ite_false]
    rw [wp_bind]
    refine hcalc fun hP _ => ?_
    rw [wp_bind, wp_readTcb, wp_bind, wp_readTcb, wp_ite]
    split
    · rw [wp_bind]
      exact wp_mono (hplain plain_abortPartner hr) fun _ _ hu => hend hlast hP hu
    · exact hend hlast hP hr
  | lockedWaiting =>
    simp +decide only [ite_true, ite_false]
    rw [wp_bind]
    refine hcalc fun hP _ => ?_
    rw [wp_bind, wp_bind, wp_readTcb, wp_pure, wp_ite]
    split
    · rw [wp_bind]
      exact wp_mono (hplain plain_abortPartner hr) fun _ _ hu => hend hlast hP hu
    · exact hend hlast hP hr
  | lockedRunningNested =>
    simp +decide only [ite_true, ite_false]
    rw [wp_bind]
    refine hcalc fun hP _ => ?_
    rw [wp_bind, wp_bind, wp_readTcb, wp_pure, wp_ite]
    split
    · rw [wp_bind]
      exact wp_mono (hplain plain_abortPartner hr) fun _ _ hu => hend plain_return_round hP hu
    · exact hend plain_return_round hP hr
  | waitingTunneledPf =>
    simp +decide only [ite_true, ite_false]
    rw [wp_bind]
    refine hcalc fun hP _ => ?_
    rw [wp_bind]
    exact wp_mono (hplain plain_abortPartner hr) fun _ _ hu => hend plain_return_round hP hu
  | waitingForever | waitingTimeout =>
    simp +decide only [ite_true, ite_false]
    rw [wp_bind]
    exact wp_mono (hplain plain_cancelTimeout hr) fun _ _ hu => hend hlast (fun h => h) hu
  | polling =>
    simp +decide only [ite_true, ite_false]
    rw [wp_bind]
    refine wp_mono (hplain plain_cancelTimeout hr) fun _ _ hu => ?_
    rw [wp_bind]
    exact wp_mono (hplain plain_dequeueSend hu) fun _ _ hu => hend hlast (fun h => h) hu

/-! ## Both rounds -/

/-- What `save_state` and `restore_state` keep up: a saved frame is not itself nested, and has not
been left in a send queue for another one. A polling thread is in the send queue of its partner. -/
structure KState.Disciplined (s : KState) (p : TcbPtr) (Q : Queues) : Prop where
  represents : s.Represents Q
  polling : (s.tcb p).state.isPolling → p ∈ Q.send (getTcb (s.tcb p).partner)
  savedPolling : (s.tcb p).savedState.isPolling →
    (s.tcb p).state.isPolling = false ∧ p ∈ Q.send (getTcb (s.tcb p).savedPartner)
  notNested : (s.tcb p).savedState ≠ .lockedRunningIpcDone
  /-- Without a frame there is no partner to go back to, and no nested IPC that is done. -/
  empty : (s.tcb p).savedState = .aborted →
    (s.tcb p).savedPartner.isNilthread ∧ (s.tcb p).state ≠ .lockedRunningIpcDone

/-- A round from `x` that jumps back with `y`. -/
def Redo (p : TcbPtr) (reason : UnwindReason) (x y : MsgTag × KState) : Prop :=
  unwindRound p reason x.1 x.2 = .ok (some y.1, y.2)

/-- One of the rounds is at a state and a partner with `R`. -/
def Tcb.InRound (c : Tcb) (R : ThreadState → ThreadId → Prop) : Prop :=
  R c.state c.partner ∨ c.redoes ∧ R c.savedState c.savedPartner

theorem Tcb.inRound_iff_of_done {c : Tcb} {R : ThreadState → ThreadId → Prop}
    (h : c.redoes = false) : c.InRound R ↔ R c.state c.partner := by
  simp [InRound, h]

theorem Tcb.inRound_iff_of_redoes {c : Tcb} {R : ThreadState → ThreadId → Prop} (h : c.redoes) :
    c.InRound R ↔ R c.state c.partner ∨ R c.savedState c.savedPartner := by
  simp [InRound, h]

/-- In this state the thread may have armed a timeout of its own: for its send or receive phase, or
as a sender for a transfer. -/
def ThreadState.mayArm (st : ThreadState) : Bool :=
  st.isPolling || st.isWaiting || st == .waitingTunneledPf || st == .lockedRunning

/-- How `unwind` is to leave the thread. -/
structure LetGo (p : TcbPtr) (s t : KState) : Prop where
  send : ∀ o, Avoids t.sendList (t.tcb o).sendHead p
  timeout : (s.tcb p).InRound (fun st _ => st.mayArm) → Avoids t.waitList t.wakeupList p

/-- The thread is in a send queue only for a round at a polling thread, and has a timeout only for a
round at a polling or waiting one. -/
structure KState.QueuedToPhase (s : KState) (p : TcbPtr) (Q : Queues) : Prop where
  send : ∀ o, p ∈ Q.send o → (s.tcb p).InRound fun st _ => st.isPolling
  timeout : (s.tcb p).InRound (fun st _ => st.mayArm) → p ∈ Q.wakeup →
    (s.tcb p).InRound fun st _ => st.isPolling ∨ st.isWaiting

/-- The transfer timeouts of a round cannot be compared. -/
def KState.UnwindHangs (s : KState) (p : TcbPtr) (reason : UnwindReason) : Prop :=
  (s.tcb p).InRound (s.HangsAt p reason)

section Rounds

variable {x y z : MsgTag × KState}

theorem KState.Disciplined.inQueues (h : s.Disciplined p Q) :
    InQueues p (p ∈ Q.wakeup) (fun o => p ∈ Q.send o) s :=
  ⟨fun n => p ∈ Q.ready n, Q, h.represents, fun _ => .rfl, .rfl, fun _ => .rfl⟩

/-- The jump back takes the frame. -/
theorem Redo.spec (h : s.Disciplined p Q) (hredo : Redo p reason (tag, s) y) :
    (s.tcb p).redoes ∧ (y.2.tcb p).state = (s.tcb p).savedState ∧
      (y.2.tcb p).partner = (s.tcb p).savedPartner ∧ y.2.saved p = (.aborted, .nilthread) ∧
      InQueues p (p ∈ Q.wakeup ∧ ¬((s.tcb p).state.isPolling ∨ (s.tcb p).state.isWaiting))
        (fun o => p ∈ Q.send o ∧ ¬(s.tcb p).state.isPolling) y.2 := by
  have hafter := wp_ok (wp_unwindRound h.inQueues h.polling) hredo
  cases hc : (s.tcb p).redoes with
  | true =>
    obtain ⟨-, hst, hpt, hsaved⟩ := hafter.redo hc
    exact ⟨rfl, hst, hpt, hsaved, hafter.queues⟩
  | false =>
    obtain ⟨hnone, -⟩ := hafter.done hc
    cases hnone

theorem Redo.frame (h : s.Disciplined p Q) (hredo : Redo p reason (tag, s) y) :
    (s.tcb p).savedState ≠ .aborted := by
  intro haborted
  obtain ⟨hnil, hdone⟩ := h.empty haborted
  obtain ⟨hc, -⟩ := hredo.spec h
  rw [Tcb.redoes_eq_false hdone hnil] at hc
  cases hc

/-- The second round is the last one. -/
theorem Redo.redoes_eq_false (h : s.Disciplined p Q) (hredo : Redo p reason (tag, s) y) :
    (y.2.tcb p).redoes = false := by
  obtain ⟨-, hst, -, hsaved, -⟩ := hredo.spec h
  obtain ⟨-, hnil⟩ := Prod.mk.inj hsaved
  refine Tcb.redoes_eq_false ?_ (hnil ▸ rfl)
  rw [hst]
  exact h.notNested

/-- The round after the jump back. -/
theorem Redo.wp_round (h : s.Disciplined p Q) (hredo : Redo p reason (tag, s) y) :
    wp NoLink (unwindRound p reason y.1) (fun o t => o = none ∧
      t.saved p = (.aborted, .nilthread) ∧
      InQueues p (p ∈ Q.wakeup ∧ ¬(s.tcb p).InRound fun st _ => st.isPolling ∨ st.isWaiting)
        (fun o => p ∈ Q.send o ∧ ¬(s.tcb p).InRound fun st _ => st.isPolling) t) y.2 := by
  obtain ⟨hc, hst, hpt, hsaved, hqueues⟩ := hredo.spec h
  have hpoll : (y.2.tcb p).state.isPolling →
      p ∈ Q.send (getTcb (y.2.tcb p).partner) ∧ ¬(s.tcb p).state.isPolling := by
    rw [hst, hpt]
    intro hp
    obtain ⟨hno, hmem⟩ := h.savedPolling hp
    exact ⟨hmem, by rw [hno]; exact nofun⟩
  refine wp_mono (wp_unwindRound hqueues hpoll) fun o t ht => ?_
  obtain ⟨hnone, htsaved⟩ := ht.done (hredo.redoes_eq_false h)
  refine ⟨hnone, htsaved.trans hsaved, ht.queues.congr ?_ fun q => ?_⟩
  · rw [Tcb.inRound_iff_of_redoes hc, hst, and_assoc, ← not_or]
  · rw [Tcb.inRound_iff_of_redoes hc, hst, and_assoc, ← not_or]

theorem Redo.not_redo (h : s.Disciplined p Q) (hredo : Redo p reason (tag, s) y) :
    ¬Redo p reason y z := by
  intro hz
  obtain ⟨hnone, -⟩ := wp_ok (hredo.wp_round h) hz
  cases hnone

/-- An unwinding is one round, or two. -/
theorem wp_unwind_rounds {E : Trap → Prop} {R : KState → Prop}
    (hone : wp E (unwindRound p reason (s.messageTag p)) (fun o t => o = none → R t) s)
    (htwo : ∀ y, Redo p reason (s.messageTag p, s) y →
      wp E (unwindRound p reason y.1) (fun o t => o = none ∧ R t) y.2)
    (hutcb : (s.tcb p).utcb = none → E .nullUtcb) :
    wp E (unwind p reason) (fun _ t => R t) s := by
  simp only [unwind, getTag, getMr, wp_bind, wp_readUtcb, wp_pure]
  refine ⟨hutcb, fun u hu => ?_⟩
  have htag : (⟨(s.utcb u).mr 0⟩ : MsgTag) = s.messageTag p := by
    simp only [KState.messageTag, KState.reg, KState.utcbOf_eq hu]
  rw [htag, unwindLoop_succ, wp_bind]
  refine wp_mono (wp_and hone (wp_iff_ok.mpr fun _ _ h => h)) ?_
  rintro (_ | tag') r ⟨hr, hrun⟩
  · exact hr rfl
  · show wp E (unwindLoop p reason 2 tag') (fun _ t => R t) r
    rw [unwindLoop_succ, wp_bind]
    refine wp_mono (htwo (tag', r) hrun) ?_
    rintro _ t ⟨rfl, ht⟩
    exact ht

/-- `unwind` hangs only in the comparison of timeouts, and does not return from it. -/
theorem wp_unwind_hang (h : s.Disciplined p Q) :
    wp (fun e => e = .hang → s.UnwindHangs p reason) (unwind p reason)
      (fun _ _ => ¬s.UnwindHangs p reason) s := by
  refine wp_unwind_rounds ?_ (fun y hy => ?_) fun _ => nofun
  · have hround : wp _ (unwindRound p reason (s.messageTag p)) _ s := wp_unwindRound_hang
    have hfirst : wp (fun e => e = .hang → s.UnwindHangs p reason)
        (unwindRound p reason (s.messageTag p)) _ s :=
      wp_weaken (fun _ he hh => .inl (he hh)) hround
    refine wp_mono (wp_and hfirst (wp_mayTrap (wp_unwindRound h.inQueues h.polling))) ?_
    rintro o t ⟨⟨hP, -⟩, hafter⟩ rfl
    have hc : (s.tcb p).redoes = false := by
      rw [Bool.eq_false_iff]
      intro hc
      cases (hafter.redo hc).1
    rw [KState.UnwindHangs, Tcb.inRound_iff_of_done hc]
    exact hP
  · obtain ⟨hc, hst, hpt, -, -⟩ := hy.spec h
    obtain ⟨hP, hxfer⟩ := wp_ok wp_unwindRound_hang hy
    have hiff : y.2.HangsAt p reason (s.tcb p).savedState (s.tcb p).savedPartner ↔
        s.HangsAt p reason (s.tcb p).savedState (s.tcb p).savedPartner :=
      KState.HangsAt.congr hxfer
    have hround : wp _ (unwindRound p reason y.1) _ y.2 := wp_unwindRound_hang
    rw [hst, hpt, hiff] at hround
    have hsecond : wp (fun e => e = .hang → s.UnwindHangs p reason) (unwindRound p reason y.1) _
        y.2 := wp_weaken (fun _ he hh => .inr ⟨hc, he hh⟩) hround
    refine wp_mono (wp_and hsecond (wp_mayTrap (hy.wp_round h))) ?_
    rintro o t ⟨⟨hP', -⟩, hnone, -⟩
    rw [KState.UnwindHangs, Tcb.inRound_iff_of_redoes hc]
    exact ⟨hnone, not_or.mpr ⟨hP, hP'⟩⟩

/-- What `unwind` leaves of the places of the thread. -/
theorem wp_unwind_inQueues (h : s.Disciplined p Q) :
    wp NoLink (unwind p reason) (fun _ t =>
      InQueues p (p ∈ Q.wakeup ∧ ¬(s.tcb p).InRound fun st _ => st.isPolling ∨ st.isWaiting)
        (fun o => p ∈ Q.send o ∧ ¬(s.tcb p).InRound fun st _ => st.isPolling) t ∧
      ((s.tcb p).redoes → t.saved p = (.aborted, .nilthread))) s := by
  refine wp_unwind_rounds ?_ (fun y hy => ?_) fun _ => nofun
  · refine wp_mono (wp_unwindRound h.inQueues h.polling) ?_
    rintro o t ht rfl
    have hc : (s.tcb p).redoes = false := by
      rw [Bool.eq_false_iff]
      intro hc
      cases (ht.redo hc).1
    refine ⟨ht.queues.congr ?_ fun q => ?_, fun h => absurd h (by simp [hc])⟩
    · rw [Tcb.inRound_iff_of_done hc]
    · rw [Tcb.inRound_iff_of_done hc]
  · exact wp_mono (hy.wp_round h) fun o t ht => ⟨ht.1, ht.2.2, fun _ => ht.2.1⟩

end Rounds

/-! ## The law -/

theorem oneSender_disciplined : KState.oneSender.Disciplined sampleSender .oneSender := by
  refine ⟨oneSender_represents, fun _ => by decide, fun h => ?_, by decide, fun h => ?_⟩
  · revert h
    decide
  · revert h
    decide

/-- The receiver selects the sender, which is to take itself out of the send queue. -/
def selectSender : Kernel Unit := do
  cancelTimeout sampleSender
  modTcb sampleSender fun c => { c with state := .lockedRunning, savedState := .aborted }
  modTcb sampleReceiver fun c => { c with state := .lockedWaiting, partner := sampleTid 0 }

/-- The sender, with a transfer timeout, tunnels a page fault to the receiver. -/
def tunnelSender : Kernel Unit := do
  dequeueSend sampleSender sampleReceiver
  modTcb sampleSender fun c => { c with state := .waitingTunneledPf, savedState := .aborted }
  modTcb sampleReceiver fun c => { c with state := .lockedRunningNested, partner := sampleTid 0 }

/-- No frame, and not polling. -/
def Tcb.unframed (c : Tcb) : Bool :=
  !c.state.isPolling && c.savedState == .aborted && c.savedPartner.isNilthread &&
    c.state != .lockedRunningIpcDone

theorem disciplined_of_unframed (hQ : s.Represents Q) (h : (s.tcb p).unframed) :
    s.Disciplined p Q := by
  simp only [Tcb.unframed, Bool.and_eq_true, Bool.not_eq_true', beq_iff_eq, bne_iff_ne] at h
  obtain ⟨⟨⟨hpoll, hsaved⟩, hnil⟩, hdone⟩ := h
  refine ⟨hQ, fun hp => ?_, fun hp => ?_, ?_, fun _ => ⟨hnil, hdone⟩⟩
  · rw [hpoll] at hp
    cases hp
  · rw [hsaved] at hp
    cases hp
  · rw [hsaved]
    exact nofun

theorem preserves_represents {x : Kernel α} (hx : KeepsQueues x) :
    Preserves (fun s => s.Represents Q) x :=
  fun s a t hQ hs => hQ.congr (hx s a t hs)

end L4Thread
