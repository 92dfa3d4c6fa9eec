import L4Thread.Theory.NullSafe
import L4Thread.Theory.UnwindEnds

/-!
# ExchangeRegisters

`perform_exregs` writes the selected registers, then cancels the IPC of the thread if the bit for
its phase is set, and then halts or resumes the thread. It goes by the state of the thread each
time, which the cancellation changes.
-/

namespace L4Thread

open TrapM Kernel

variable {s t r : KState} {p q : TcbPtr} {a : ExregsArgs} {v : ExregsValues} {tag : MsgTag}
  {reason : UnwindReason} {α : Type} {E : Trap → Prop}

/-! ## Registers -/

/-- The registers that are exchanged. -/
@[ext] structure Regs where
  sp : Word
  ip : Word
  flags : Word
  pager : ThreadId
  uhandle : Word
  deriving DecidableEq

def Tcb.exregs (c : Tcb) (u : Utcb) : Regs :=
  ⟨c.userSp, c.userIp, c.userFlags, u.pager, u.userDefinedHandle⟩

def KState.exregs (s : KState) (p : TcbPtr) : Regs := (s.tcb p).exregs (s.utcbOf p)

def ExregsValues.exregs (v : ExregsValues) : Regs := ⟨v.usp, v.uip, v.uflags, v.pager, v.uhandle⟩

/-- The new values in the selected registers. -/
def ExregsArgs.select (a : ExregsArgs) (r : Regs) : Regs where
  sp := if a.sp then a.usp else r.sp
  ip := if a.ip then a.uip else r.ip
  flags := if a.flags then a.uflags else r.flags
  pager := if a.pager then a.pagerTid else r.pager
  uhandle := if a.uhandleFlag then a.uhandle else r.uhandle

/-- The state without the registers that can be written. -/
def KState.sansRegs (s : KState) : KState :=
  { s with
    tcb := fun q => { s.tcb q with userSp := 0, userIp := 0 }
    utcb := fun u => { s.utcb u with pager := .nilthread, userDefinedHandle := 0 } }

/-- The bit for the phase of the IPC is set. -/
def ExregsArgs.Cancels (a : ExregsArgs) (st : ThreadState) : Prop :=
  st.isSending ∧ a.send ∨ st.isReceiving ∧ a.recv

/-- The thread is out of its IPC and goes on in `handle_ipc_error`. -/
def KState.Cancelled (s : KState) (p : TcbPtr) : Prop :=
  ((s.tcb p).state = .running ∨ (s.tcb p).state = .halted) ∧ brokenOff (s.tcb p).stack

/-- What an exchange of registers does. The user flags cannot be written. -/
structure Exchanged (a : ExregsArgs) (p : TcbPtr) (s t : KState) (v : ExregsValues) : Prop where
  old : v.exregs = s.exregs p
  send : v.control.getLsbD 2 = (s.tcb p).state.isSending
  recv : v.control.getLsbD 1 = (s.tcb p).state.isReceiving
  halt : v.control.getLsbD 0 = (s.tcb p).state.isHalted
  own : t.exregs p = { a.select (s.exregs p) with flags := (s.exregs p).flags }
  others : ∀ q, (s.tcb q).utcb ≠ (s.tcb p).utcb → t.exregs q = s.exregs q
  cancelled : (s.tcb p).state.isSending ∨ (s.tcb p).state.isReceiving →
    (t.Cancelled p ↔ a.Cancels (s.tcb p).state)
  /-- An IPC that is not cancelled goes on. -/
  kept : (s.tcb p).state.isSending ∨ (s.tcb p).state.isReceiving →
    ¬a.Cancels (s.tcb p).state → t.sansRegs = s.sansRegs
  halted : (s.tcb p).state = .running ∨ (s.tcb p).state = .halted → a.haltFlag →
    (t.tcb p).state = if a.halt then .halted else .running
  still : (s.tcb p).state = .running ∨ (s.tcb p).state = .halted → a.haltFlag = false →
    t.sansRegs = s.sansRegs

/-! ## Frame conditions -/

/-- The exchanged registers that are in TCBs and those in UTCBs. -/
def KState.allRegs (s : KState) :
    (TcbPtr → Word × Word × Word × Option UtcbPtr) × (UtcbPtr → ThreadId × Word) :=
  (fun q => ((s.tcb q).userSp, (s.tcb q).userIp, (s.tcb q).userFlags, (s.tcb q).utcb),
    fun u => ((s.utcb u).pager, (s.utcb u).userDefinedHandle))

abbrev KeepsExregs (x : Kernel α) : Prop := Keeps KState.allRegs x

theorem KState.exregs_congr (h : t.allRegs = s.allRegs) (q : TcbPtr) : t.exregs q = s.exregs q := by
  obtain ⟨htcb, hutcb⟩ := Prod.mk.inj h
  have hq := congrFun htcb q
  simp only [Prod.mk.injEq] at hq
  obtain ⟨hsp, hip, hflags, hu⟩ := hq
  rw [exregs, exregs, Tcb.exregs, Tcb.exregs, hsp, hip, hflags, utcbOf, utcbOf, hu]
  cases (s.tcb q).utcb with
  | none => rfl
  | some u =>
    obtain ⟨hpager, hhandle⟩ := Prod.mk.inj (congrFun hutcb u)
    dsimp only
    rw [hpager, hhandle]

theorem keepsExregs_of_ipc {x : Kernel α} (h : KeepsIpc x) : KeepsExregs x :=
  h.comp fun d : (TcbPtr → Tcb) × (UtcbPtr → Utcb) =>
    (fun q => ((d.1 q).userSp, (d.1 q).userIp, (d.1 q).userFlags, (d.1 q).utcb),
      fun u => ((d.2 u).pager, (d.2 u).userDefinedHandle))

theorem keepsExregs_modTcb {f : Tcb → Tcb}
    (h : ∀ c, ((f c).userSp, (f c).userIp, (f c).userFlags, (f c).utcb) =
      (c.userSp, c.userIp, c.userFlags, c.utcb)) : KeepsExregs (modTcb p f) := by
  refine .modify fun s => Prod.ext (funext fun q => ?_) rfl
  rcases eq_or_ne q p with rfl | hq
  · simp only [KState.allRegs, Function.update_self, h]
  · simp only [KState.allRegs, Function.update_of_ne hq]

theorem keepsExregs_modUtcb {f : Utcb → Utcb}
    (h : ∀ u, ((f u).pager, (f u).userDefinedHandle) = (u.pager, u.userDefinedHandle)) :
    KeepsExregs (modUtcb p f) := by
  refine .bind keeps_getUtcb fun u => .modify fun s => Prod.ext rfl (funext fun w => ?_)
  rcases eq_or_ne w u with rfl | hw
  · simp only [KState.allRegs, Function.update_self, h]
  · simp only [KState.allRegs, Function.update_of_ne hw]

theorem keepsExregs_enqueueReady {b : Bool} : KeepsExregs (enqueueReady p b) :=
  keepsExregs_of_ipc (keepsIpc_of_core keepsCore_enqueueReady)

theorem keepsExregs_restoreState : KeepsExregs (restoreState p) := by
  unfold restoreState restoreRegisters setErrorCode
  refine .bind (.bind (.gets _) fun _ => keepsExregs_modUtcb fun _ => rfl) fun _ => ?_
  refine .bind (keepsExregs_modTcb fun _ => rfl) fun _ => .bind (.gets _) fun _ => ?_
  exact .bind (keepsExregs_modUtcb fun _ => rfl) fun _ => keepsExregs_modTcb fun _ => rfl

theorem keepsExregs_setIpcError {err : Word} : KeepsExregs (setIpcError p tag err) := by
  unfold setIpcError setTag setMr setErrorCode
  exact .bind (keepsExregs_modUtcb fun _ => rfl) fun _ => keepsExregs_modUtcb fun _ => rfl

theorem keepsExregs_abortPartner {err : Word} : KeepsExregs (abortPartner p tag err) := by
  unfold abortPartner setErrorCode setTag setMr setState notify pushFrame
  refine .bind (keepsExregs_modUtcb fun _ => rfl) fun _ => ?_
  refine .bind (keepsExregs_modUtcb fun _ => rfl) fun _ => ?_
  refine .bind (keepsExregs_modTcb fun _ => rfl) fun _ => ?_
  exact .bind (keepsExregs_modTcb fun _ => rfl) fun _ => keepsExregs_enqueueReady

theorem keepsExregs_unwindRound : KeepsExregs (unwindRound p reason tag) := by
  unfold unwindRound getState setState getPartnerTcb
  have hset : KeepsExregs (modTcb p fun c => { c with state := .running }) :=
    keepsExregs_modTcb fun _ => rfl
  have hcancel : KeepsExregs (cancelTimeout p) :=
    keepsExregs_of_ipc (keepsIpc_of_core keepsCore_cancelTimeout)
  have hdequeue : ∀ q, KeepsExregs (dequeueSend p q) := fun _ => keepsExregs_of_ipc keepsIpc_dequeueSend
  have hcodes : ∀ a b, KeepsExregs (calculateErrorcodes reason a b) := fun _ _ =>
    keeps_calculateErrorcodes.comp KState.allRegs
  have hrestore : KeepsExregs (restoreState p) := keepsExregs_restoreState
  have herror : ∀ tag' err, KeepsExregs (setIpcError p tag' err) := fun _ _ => keepsExregs_setIpcError
  have habort : ∀ q tag' err, KeepsExregs (abortPartner q tag' err) := fun _ _ _ =>
    keepsExregs_abortPartner
  dsimp only
  repeat' first | with_reducible refine Keeps.bind ?_ fun _ => ?_ | split
  all_goals grind

theorem keepsExregs_unwindLoop (n : Nat) : ∀ tag, KeepsExregs (unwindLoop p reason n tag) := by
  induction n with
  | zero => exact fun _ => .trap _
  | succ n ih =>
    intro tag
    rw [unwindLoop_succ]
    refine .bind keepsExregs_unwindRound fun o => ?_
    cases o with
    | none => exact .pure _
    | some tag' => exact ih tag'

theorem keepsExregs_unwind : KeepsExregs (unwind p reason) := by
  unfold unwind getTag getMr
  refine .bind ?_ fun _ => keepsExregs_unwindLoop 3 _
  exact .bind (.bind keeps_readUtcb fun _ => .pure _) fun _ => .pure _

/-! ## The selected registers -/

/-- Registers of `p` have been written, and nothing else. -/
structure WritesRegs (p : TcbPtr) (f : Regs → Regs) (s t : KState) : Prop where
  own : t.exregs p = f (s.exregs p)
  others : ∀ q, (s.tcb q).utcb ≠ (s.tcb p).utcb → t.exregs q = s.exregs q
  rest : t.sansRegs = s.sansRegs

section Writes

variable {f g : Regs → Regs}

theorem KState.tcb_of_sansRegs (h : t.sansRegs = s.sansRegs) (q : TcbPtr) :
    { t.tcb q with userSp := 0, userIp := 0 } = { s.tcb q with userSp := 0, userIp := 0 } :=
  congrFun (congrArg KState.tcb h) q

theorem KState.utcb_of_sansRegs (h : t.sansRegs = s.sansRegs) (q : TcbPtr) :
    (t.tcb q).utcb = (s.tcb q).utcb := by
  have hq := congrArg Tcb.utcb (tcb_of_sansRegs h q)
  exact hq

theorem WritesRegs.trans (h : WritesRegs p f s t) (h' : WritesRegs p g t r) :
    WritesRegs p (fun x => g (f x)) s r where
  own := by rw [h'.own, h.own]
  others q hq := by
    rw [h'.others q, h.others q hq]
    rwa [KState.utcb_of_sansRegs h.rest, KState.utcb_of_sansRegs h.rest]
  rest := h'.rest.trans h.rest

theorem wp_modTcb_writes {f : Tcb → Tcb} (hown : ∀ c u, (f c).exregs u = g (c.exregs u))
    (hrest : ∀ c, { f c with userSp := 0, userIp := 0 } = { c with userSp := 0, userIp := 0 }) :
    wp E (modTcb p f) (fun _ t => WritesRegs p g s t) s := by
  have hutcb : ∀ c, (f c).utcb = c.utcb := by
    intro c
    have hc := congrArg Tcb.utcb (hrest c)
    exact hc
  rw [wp_modTcb]
  refine ⟨?_, fun q hq => ?_, ?_⟩
  · simp only [KState.exregs, KState.utcbOf, Function.update_self, hutcb, hown]
  · have hne : q ≠ p := fun h => hq (h ▸ rfl)
    simp only [KState.exregs, KState.utcbOf, Function.update_of_ne hne]
  · simp only [KState.sansRegs]
    congr 1
    funext q
    rcases eq_or_ne q p with rfl | hne
    · simp only [Function.update_self, hrest]
    · simp only [Function.update_of_ne hne]

theorem wp_modUtcb_writes {f : Utcb → Utcb} (hp : (s.tcb p).utcb ≠ none)
    (hown : ∀ c u, Tcb.exregs c (f u) = g (c.exregs u))
    (hrest : ∀ u, { f u with pager := .nilthread, userDefinedHandle := 0 } =
      { u with pager := .nilthread, userDefinedHandle := 0 }) :
    wp E (modUtcb p f) (fun _ t => WritesRegs p g s t) s := by
  rw [wp_modUtcb]
  refine ⟨fun h => absurd h hp, fun u hu => ⟨?_, fun q hq => ?_, ?_⟩⟩
  · simp only [KState.exregs, KState.utcbOf, hu, Function.update_self, hown]
  · have hq' : ∀ w, (s.tcb q).utcb = some w → w ≠ u := by
      rintro w hw rfl
      exact hq (hw.trans hu.symm)
    simp only [KState.exregs, KState.utcbOf]
    cases hw : (s.tcb q).utcb with
    | none => rfl
    | some w =>
      dsimp only
      rw [Function.update_of_ne (hq' w hw)]
  · simp only [KState.sansRegs]
    congr 1
    funext w
    rcases eq_or_ne w u with rfl | hne
    · simp only [Function.update_self, hrest]
    · simp only [Function.update_of_ne hne]

theorem wp_writes_if {b : Bool} {x : Kernel Unit} (f : Bool → Regs → Regs)
    (hx : wp E x (fun _ t => WritesRegs p (f true) s t) s) (hf : ∀ r, f false r = r) :
    wp E (if b then x else pure ()) (fun _ t => WritesRegs p (f b) s t) s := by
  cases b with
  | true => exact hx
  | false => exact ⟨(hf _).symm, fun _ _ => rfl, rfl⟩

theorem exregsWrite_eq : exregsWrite p a = (do
    (if a.sp then modTcb p fun c => { c with userSp := a.usp } else pure ())
    (if a.ip then modTcb p fun c => { c with userIp := a.uip } else pure ())
    (if a.pager then modUtcb p fun u => { u with pager := a.pagerTid } else pure ())
    (if a.uhandleFlag then modUtcb p fun u => { u with userDefinedHandle := a.uhandle } else pure ())
    (if a.flags then setUserFlags p a.uflags else pure ())) := by
  simp only [exregsWrite, ite_bind, TrapM.pure_bind]

theorem wp_exregsWrite (hp : (s.tcb p).utcb ≠ none) :
    wp E (exregsWrite p a) (fun _ t =>
      WritesRegs p (fun r => { a.select r with flags := r.flags }) s t) s := by
  rw [exregsWrite_eq, wp_bind]
  refine wp_mono (wp_writes_if (fun b r => { r with sp := if b then a.usp else r.sp })
    (wp_modTcb_writes (fun _ _ => rfl) fun _ => rfl) fun _ => rfl) fun _ s1 h1 => ?_
  rw [wp_bind]
  refine wp_mono (wp_writes_if (fun b r => { r with ip := if b then a.uip else r.ip })
    (wp_modTcb_writes (fun _ _ => rfl) fun _ => rfl) fun _ => rfl) fun _ s2 h2 => ?_
  have hp2 : (s2.tcb p).utcb ≠ none := by
    rwa [KState.utcb_of_sansRegs h2.rest, KState.utcb_of_sansRegs h1.rest]
  rw [wp_bind]
  refine wp_mono (wp_writes_if (fun b r => { r with pager := if b then a.pagerTid else r.pager })
    (wp_modUtcb_writes hp2 (fun _ _ => rfl) fun _ => rfl) fun _ => rfl) fun _ s3 h3 => ?_
  have hp3 : (s3.tcb p).utcb ≠ none := by rwa [KState.utcb_of_sansRegs h3.rest]
  rw [wp_bind]
  refine wp_mono (wp_writes_if (fun b r => { r with uhandle := if b then a.uhandle else r.uhandle })
    (wp_modUtcb_writes hp3 (fun _ _ => rfl) fun _ => rfl) fun _ => rfl) fun _ s4 h4 => ?_
  have hall := ((h1.trans h2).trans h3).trans h4
  have hflags : wp E (if a.flags then setUserFlags p a.uflags else pure ()) (fun _ t => t = s4)
      s4 := by
    cases a.flags <;> rfl
  refine wp_mono hflags ?_
  rintro _ _ rfl
  exact ⟨hall.own, hall.others, hall.rest⟩

end Writes

/-! ## Cancelling, halting and resuming -/

/-- `enqueue_ready` leaves the states and the kernel activations alone. -/
theorem wp_enqueueReady_thread {b : Bool} : wp (fun _ => True) (enqueueReady q b) (fun _ t =>
    (t.tcb p).state = (s.tcb p).state ∧ (t.tcb p).stack = (s.tcb p).stack) s := by
  refine keepsCore_enqueueReady.wp fun _ t ht => ?_
  have htcb : (t.tcb p).core = (s.tcb p).core := congrFun (congrArg Core.tcb ht) p
  have hst : (t.tcb p).core.state = (s.tcb p).core.state := congrArg Tcb.state htcb
  have hstack : (t.tcb p).core.stack = (s.tcb p).core.stack := congrArg Tcb.stack htcb
  exact ⟨hst, hstack⟩

theorem keepsExregs_setState {st : ThreadState} : KeepsExregs (setState p st) :=
  keepsExregs_modTcb fun _ => rfl

theorem keepsExregs_exregsAbort : KeepsExregs (exregsAbort p) := by
  unfold exregsAbort notify pushFrame
  refine .bind keepsExregs_unwind fun _ => .bind keepsExregs_setState fun _ => ?_
  exact .bind (keepsExregs_modTcb fun _ => rfl) fun _ => keepsExregs_enqueueReady

/-- The thread is to run, and to go on in `handle_ipc_error`. -/
theorem wp_exregsAbort : wp (fun _ => True) (exregsAbort p) (fun _ t =>
    (t.tcb p).state = .running ∧ brokenOff (t.tcb p).stack) s := by
  unfold exregsAbort setState notify pushFrame
  refine wp_bind_of_forall fun _ s1 => ?_
  rw [wp_bind, wp_modTcb, wp_bind, wp_modTcb]
  refine wp_mono (wp_enqueueReady_thread (p := p)) fun _ t ht => ?_
  simp only [Function.update_self] at ht
  exact ⟨ht.1, by rw [ht.2]; rfl⟩

/-- The IPC is cancelled if the bit is set. -/
theorem wp_abortIfSet {b : Bool} {w : Word} :
    wp (fun _ => True) (if b then do exregsAbort p; pure w else pure w) (fun w' t =>
      w' = w ∧ t.allRegs = s.allRegs ∧ (b = false → t = s) ∧
      (b = true → (t.tcb p).state = .running ∧ brokenOff (t.tcb p).stack)) s := by
  cases b with
  | false => exact ⟨rfl, rfl, fun _ => rfl, fun h => Bool.noConfusion h⟩
  | true =>
    rw [if_pos rfl, wp_bind]
    refine wp_mono (wp_and wp_exregsAbort (wp_iff_ok.mpr fun _ t ht =>
      keepsExregs_exregsAbort s _ t ht)) fun _ t ht => ?_
    exact ⟨rfl, ht.2, fun h => Bool.noConfusion h, fun _ => ht.1⟩

theorem ThreadState.not_receiving_of_sending {st : ThreadState} (h : st.isSending) :
    st.isReceiving = false := by
  cases st with
  | polling | lockedRunning => rfl
  | _ => cases h

/-- The IPC is cancelled if and only if the bit for its phase is set. -/
theorem wp_exregsIpc : wp (fun _ => True) (exregsIpc p a) (fun w t =>
    w = (if (s.tcb p).state.isSending then 4 else if (s.tcb p).state.isReceiving then 2 else 0) ∧
    t.allRegs = s.allRegs ∧ (¬a.Cancels (s.tcb p).state → t = s) ∧
    (a.Cancels (s.tcb p).state → (t.tcb p).state = .running ∧ brokenOff (t.tcb p).stack)) s := by
  rw [exregsIpc, wp_bind, getState, wp_bind, wp_readTcb, wp_pure, wp_ite]
  unfold ExregsArgs.Cancels
  split
  · rename_i hsend
    rw [ThreadState.not_receiving_of_sending hsend]
    refine wp_mono wp_abortIfSet ?_
    rintro w t ⟨hw, hregs, hno, hyes⟩
    refine ⟨hw, hregs, fun h => hno ?_, fun h => hyes ?_⟩
    · simpa [hsend] using h
    · simpa [hsend] using h
  · rename_i hsend
    rw [wp_ite]
    split
    · rename_i hrecv
      refine wp_mono wp_abortIfSet ?_
      rintro w t ⟨hw, hregs, hno, hyes⟩
      refine ⟨hw, hregs, fun h => hno ?_, fun h => hyes ?_⟩
      · simpa [hsend, hrecv] using h
      · simpa [hsend, hrecv] using h
    · rename_i hrecv
      refine ⟨rfl, rfl, fun _ => rfl, ?_⟩
      rintro (⟨h, -⟩ | ⟨h, -⟩)
      · exact absurd h hsend
      · exact absurd h hrecv

theorem keepsExregs_exregsHalt : KeepsExregs (exregsHalt p a) := by
  unfold exregsHalt getState
  have hidle : KeepsExregs switchToIdle := .modify fun _ => rfl
  have hready : KeepsExregs (enqueueReady p false) := keepsExregs_enqueueReady
  have hset : ∀ st, KeepsExregs (setState p st) := fun _ => keepsExregs_setState
  have hcurrent : KeepsExregs getCurrentTcb := .gets _
  dsimp only
  repeat' first | with_reducible refine Keeps.bind ?_ fun _ => ?_ | split
  all_goals grind

/-- A running or halted thread is halted or resumed as the halt flag has it. -/
theorem wp_exregsHalt : wp (fun _ => True) (exregsHalt p a) (fun w t =>
    w = (if (s.tcb p).state.isHalted then 1 else 0) ∧ (t.tcb p).stack = (s.tcb p).stack ∧
    ((s.tcb p).state = .running ∨ (s.tcb p).state = .halted → a.haltFlag →
      (t.tcb p).state = if a.halt then .halted else .running) ∧
    (((s.tcb p).state = .running ∨ (s.tcb p).state = .halted → a.haltFlag = false) → t = s)) s := by
  rw [exregsHalt, wp_bind, getState, wp_bind, wp_readTcb, wp_pure, wp_ite]
  split
  · rename_i hhalted
    have hst : (s.tcb p).state = .halted := by simpa [ThreadState.isHalted] using hhalted
    by_cases hresume : a.haltFlag ∧ !a.halt
    · have hhalt : a.halt = false := by simpa using hresume.2
      rw [if_pos hresume, hhalt]
      simp only [wp_bind, wp_pure, setState, wp_modTcb]
      refine wp_mono (wp_enqueueReady_thread (p := p)) fun _ t ht => ?_
      simp only [Function.update_self] at ht
      refine ⟨trivial, ht.2, fun _ _ => ht.1, fun h => ?_⟩
      exact Bool.noConfusion (hresume.1.symm.trans (h (.inr hst)))
    · rw [if_neg hresume]
      refine ⟨rfl, rfl, fun _ hflag => ?_, fun _ => rfl⟩
      have hhalt : a.halt = true := by simpa [hflag] using hresume
      rw [hhalt]
      exact hst
  · rename_i hhalted
    have hst : (s.tcb p).state ≠ .halted := by simpa [ThreadState.isHalted] using hhalted
    by_cases hstop : a.haltFlag ∧ a.halt ∧ (s.tcb p).state.isRunning
    · have hrun : (s.tcb p).state = .running := by
        simpa [ThreadState.isRunning] using hstop.2.2
      rw [if_pos hstop]
      simp only [wp_bind, setState, wp_modTcb, wp_getCurrentTcb]
      have hno : ¬((s.tcb p).state = .running ∨ (s.tcb p).state = .halted → a.haltFlag = false) :=
        fun h => Bool.noConfusion (hstop.1.symm.trans (h (.inl hrun)))
      have hnew : ∀ t : KState, (t.tcb p).state = .halted → (t.tcb p).stack = (s.tcb p).stack →
          (0 : Word) = 0 ∧ (t.tcb p).stack = (s.tcb p).stack ∧
          ((s.tcb p).state = .running ∨ (s.tcb p).state = .halted → a.haltFlag →
            (t.tcb p).state = if a.halt then .halted else .running) ∧
          (((s.tcb p).state = .running ∨ (s.tcb p).state = .halted → a.haltFlag = false) →
            t = s) := by
        intro t ht hstack
        rw [ht, hstop.2.1]
        exact ⟨rfl, hstack, fun _ _ => rfl, fun h => absurd h hno⟩
      rw [wp_ite]
      split
      · exact hnew _ (by simp only [Function.update_self]) (by simp only [Function.update_self])
      · exact hnew _ (by simp only [Function.update_self]) (by simp only [Function.update_self])
    · rw [if_neg hstop]
      refine ⟨rfl, rfl, fun hor hflag => ?_, fun _ => rfl⟩
      have hrun : (s.tcb p).state = .running := hor.resolve_right hst
      have hhalt : a.halt = false := by simpa [hflag, hrun, ThreadState.isRunning] using hstop
      rw [hhalt]
      exact hrun

/-! ## The exchange -/

theorem KState.state_of_sansRegs (h : t.sansRegs = s.sansRegs) (q : TcbPtr) :
    (t.tcb q).state = (s.tcb q).state := by
  have hq := congrArg Tcb.state (tcb_of_sansRegs h q)
  exact hq

/-- A thread in an IPC is neither running nor halted. -/
theorem ThreadState.not_running_of_ipc {st : ThreadState} (h : st.isSending ∨ st.isReceiving) :
    ¬(st = .running ∨ st = .halted) := by
  rintro (rfl | rfl)
  · exact absurd h (by decide)
  · exact absurd h (by decide)

theorem ExregsArgs.Cancels.ipc {st : ThreadState} (h : a.Cancels st) :
    st.isSending ∨ st.isReceiving :=
  h.imp And.left And.left

/-- The bits of the old control word. -/
theorem control_bits (st : ThreadState) (w h : Word)
    (hw : w = if st.isSending then 4 else if st.isReceiving then 2 else 0)
    (hh : h = if st.isHalted then 1 else 0) :
    (w ||| h).getLsbD 2 = st.isSending ∧ (w ||| h).getLsbD 1 = st.isReceiving ∧
      (w ||| h).getLsbD 0 = st.isHalted := by
  subst hw hh
  cases st <;> decide

theorem wp_performExregs :
    wp (fun _ => True) (performExregs p a) (fun v t => Exchanged a p s t v) s := by
  rw [performExregs, wp_bind, wp_readTcb, wp_bind, wp_readUtcb]
  refine ⟨fun _ => trivial, fun u hu => ?_⟩
  have hp : (s.tcb p).utcb ≠ none := by
    rw [hu]
    exact Option.some_ne_none u
  rw [wp_bind]
  refine wp_mono (wp_exregsWrite hp) fun _ r hr => ?_
  rw [wp_bind]
  refine wp_mono wp_exregsIpc ?_
  rintro w r1 ⟨hw, hregs1, hkept, hcancelled⟩
  rw [wp_bind]
  refine wp_mono (wp_and wp_exregsHalt (wp_iff_ok.mpr fun _ t ht =>
    keepsExregs_exregsHalt r1 _ t ht)) ?_
  rintro h t ⟨⟨hh, hstack, hhalts, hstill⟩, hregs2⟩
  rw [wp_pure]
  have hst := KState.state_of_sansRegs hr.rest p
  rw [hst] at hw hkept hcancelled
  have hregs : t.allRegs = r.allRegs := hregs2.trans hregs1
  -- Without a cancellation the registers are all that is changed before the halt flag counts.
  have hstay : ¬a.Cancels (s.tcb p).state → r1 = r ∧ (r1.tcb p).state = (s.tcb p).state := by
    intro hno
    rw [hkept hno]
    exact ⟨rfl, hst⟩
  have hipc : (s.tcb p).state.isSending ∨ (s.tcb p).state.isReceiving →
      ¬a.Cancels (s.tcb p).state → t = r := by
    intro hin hno
    obtain ⟨hr1, hst1⟩ := hstay hno
    rw [← hr1]
    refine hstill fun hor => ?_
    rw [hst1] at hor
    exact absurd hor (ThreadState.not_running_of_ipc hin)
  have hout : (s.tcb p).state = .running ∨ (s.tcb p).state = .halted →
      ¬a.Cancels (s.tcb p).state := fun hor hc => ThreadState.not_running_of_ipc hc.ipc hor
  have hbits := control_bits (s.tcb p).state w h hw (by
    rw [hh]
    by_cases hc : a.Cancels (s.tcb p).state
    · rw [(hcancelled hc).1]
      have hno := ThreadState.not_running_of_ipc hc.ipc
      rw [if_neg (by decide), if_neg]
      simpa [ThreadState.isHalted] using (not_or.mp hno).2
    · rw [(hstay hc).2])
  refine ⟨?_, hbits.1, hbits.2.1, hbits.2.2, ?_, fun q hq => ?_,
    fun hin => ⟨fun hleft => ?_, fun hc => ?_⟩, fun hin hno => ?_, fun hor hflag => ?_,
    fun hor hflag => ?_⟩
  · rw [KState.exregs, KState.utcbOf_eq hu]
    rfl
  · rw [KState.exregs_congr hregs, hr.own]
  · rw [KState.exregs_congr hregs, hr.others q hq]
  · by_contra hno
    rw [KState.Cancelled, hipc hin hno, hst] at hleft
    exact ThreadState.not_running_of_ipc hin hleft.1
  · obtain ⟨hrun, hbroken⟩ := hcancelled hc
    refine ⟨?_, by rwa [hstack]⟩
    cases hflag : a.haltFlag with
    | true =>
      rw [hhalts (.inl hrun) hflag]
      cases a.halt
      · exact .inl rfl
      · exact .inr rfl
    | false =>
      rw [hstill fun _ => hflag]
      exact .inl hrun
  · rw [hipc hin hno]
    exact hr.rest
  · refine hhalts ?_ hflag
    rwa [(hstay (hout hor)).2]
  · rw [hstill fun _ => hflag, (hstay (hout hor)).1]
    exact hr.rest

/-! ## The exchange returns -/

section Total

variable {Q : Queues}

theorem KState.Disciplined.of_sansRegs (h : s.Disciplined p Q) (ht : t.sansRegs = s.sansRegs) :
    t.Disciplined p Q := by
  have hs : s.sansRegs.Disciplined p Q :=
    ⟨h.represents.congr rfl, h.polling, h.savedPolling, h.notNested, h.empty⟩
  rw [← ht] at hs
  exact ⟨hs.represents.congr rfl, hs.polling, hs.savedPolling, hs.notNested, hs.empty⟩

theorem KState.UnwindsSafely.of_sansRegs (h : s.UnwindsSafely p) (ht : t.sansRegs = s.sansRegs) :
    t.UnwindsSafely p := by
  have hs : s.sansRegs.UnwindsSafely p := ⟨h.inner, h.outer⟩
  rw [← ht] at hs
  exact ⟨hs.inner, hs.outer⟩

/-- An abort does not compare timeouts. -/
theorem KState.not_hangsAt_abort {st : ThreadState} {partner : ThreadId} :
    ¬s.HangsAt p .abort st partner := by
  intro h
  cases st with
  | waitingTunneledPf | lockedRunning | lockedRunningNested | lockedWaiting => cases h.1
  | _ => exact h

theorem exists_unwind_abort (hp : (s.tcb p).utcb ≠ none) (h : s.Disciplined p Q)
    (hsafe : s.UnwindsSafely p) :
    ∃ t Q', unwind p .abort s = .ok ((), t) ∧ t.Represents Q' := by
  have hqueues : wp NoLink (unwind p .abort) _ s := wp_unwind_inQueues h
  cases hrun : unwind p .abort s with
  | error e =>
    obtain ⟨hutcb, hspace⟩ := wp_error (wp_unwind_safe hp hsafe) hrun
    have hlink := wp_error hqueues hrun
    have hhang := wp_error (wp_unwind_hang h) hrun
    cases e with
    | nullUtcb => exact absurd rfl hutcb
    | nullSpace => exact absurd rfl hspace
    | nullLink => exact absurd rfl hlink
    | hang =>
      rcases hhang rfl with h | ⟨-, h⟩
      · exact absurd h KState.not_hangsAt_abort
      · exact absurd h KState.not_hangsAt_abort
  | ok x =>
    obtain ⟨⟨R, Q', hQ', -⟩, -⟩ := wp_ok hqueues hrun
    exact ⟨x.2, Q', rfl, hQ'⟩

theorem wp_enqueueReady_returns {b : Bool} (h : s.Represents Q) :
    wp (fun _ => False) (enqueueReady p b) (fun _ t => ∃ Q', t.Represents Q') s :=
  wp_mono (wp_enqueueReady_queues h) fun _ _ ht => by
    obtain ⟨ready, ht, -⟩ := ht
    exact ⟨_, ht⟩

theorem wp_modTcb_represents {f : Tcb → Tcb} (h : s.Represents Q)
    (hf : ∀ c, (f c).queued = c.queued) :
    wp (fun _ => False) (modTcb p f) (fun _ t => t.Represents Q) s := by
  have hkeep : KeepsQueues (modTcb p f) := keepsQueues_modTcb hf
  exact h.congr (hkeep s () _ rfl)

theorem wp_exregsAbort_returns (hp : (s.tcb p).utcb ≠ none) (h : s.Disciplined p Q)
    (hsafe : s.UnwindsSafely p) :
    wp (fun _ => False) (exregsAbort p) (fun _ t => ∃ Q', t.Represents Q') s := by
  obtain ⟨t, Q', hrun, hQ'⟩ := exists_unwind_abort hp h hsafe
  unfold exregsAbort setState notify pushFrame
  rw [wp_bind, wp_iff_exists]
  refine ⟨(), t, hrun, ?_⟩
  rw [wp_bind]
  refine wp_mono (wp_modTcb_represents hQ' fun _ => rfl) fun _ t1 h1 => ?_
  rw [wp_bind]
  exact wp_mono (wp_modTcb_represents h1 fun _ => rfl) fun _ t2 h2 => wp_enqueueReady_returns h2

theorem wp_exregsIpc_returns (hp : (s.tcb p).utcb ≠ none) (h : s.Disciplined p Q)
    (hsafe : s.UnwindsSafely p) :
    wp (fun _ => False) (exregsIpc p a) (fun _ t => ∃ Q', t.Represents Q') s := by
  have habort : ∀ {b : Bool} {w : Word}, wp (fun _ => False)
      (if b then do exregsAbort p; pure w else pure w) (fun _ t => ∃ Q', t.Represents Q') s := by
    intro b w
    cases b with
    | false => exact ⟨Q, h.represents⟩
    | true =>
      rw [if_pos rfl, wp_bind]
      exact wp_exregsAbort_returns hp h hsafe
  rw [exregsIpc, wp_bind, getState, wp_bind, wp_readTcb, wp_pure, wp_ite]
  split
  · exact habort
  · rw [wp_ite]
    split
    · exact habort
    · exact ⟨Q, h.represents⟩

theorem wp_exregsHalt_returns (h : s.Represents Q) :
    wp (fun _ => False) (exregsHalt p a) (fun _ _ => True) s := by
  rw [exregsHalt, wp_bind, getState, wp_bind, wp_readTcb, wp_pure, wp_ite]
  split
  · rw [wp_ite]
    split
    · rw [setState, wp_bind]
      refine wp_mono (wp_modTcb_represents h fun _ => rfl) fun _ t ht => ?_
      rw [wp_bind]
      exact wp_mono (wp_enqueueReady_returns ht) fun _ _ _ => trivial
    · trivial
  · rw [wp_ite]
    split
    · rw [setState, wp_bind, wp_modTcb, wp_bind, wp_getCurrentTcb, wp_ite]
      split
      · trivial
      · trivial
    · trivial

theorem exists_performExregs (hp : (s.tcb p).utcb ≠ none) (h : s.Disciplined p Q)
    (hsafe : s.UnwindsSafely p) : ∃ v t, performExregs p a s = .ok (v, t) := by
  have hwp : wp (fun _ => False) (performExregs p a) (fun _ _ => True) s := by
    rw [performExregs, wp_bind, wp_readTcb, wp_bind, wp_readUtcb]
    refine ⟨hp, fun u hu => ?_⟩
    rw [wp_bind]
    refine wp_mono (wp_exregsWrite hp) fun _ r hr => ?_
    have hpr : (r.tcb p).utcb ≠ none := by rwa [KState.utcb_of_sansRegs hr.rest]
    rw [wp_bind]
    refine wp_mono (wp_exregsIpc_returns hpr (h.of_sansRegs hr.rest) (hsafe.of_sansRegs hr.rest)) ?_
    rintro w t ⟨Q', ht⟩
    rw [wp_bind]
    exact wp_mono (wp_exregsHalt_returns ht) fun _ _ _ => trivial
  obtain ⟨v, t, hrun, -⟩ := wp_iff_exists.mp hwp
  exact ⟨v, t, hrun⟩

end Total

/-- `perform_exregs` returns what the thread had and writes what is selected, cancels the IPC if and
only if the bit for its phase is set, and halts or resumes the thread. -/
theorem performExregs_exchanges (a : ExregsArgs) (p : TcbPtr) (s : KState) :
    (∀ v t, performExregs p a s = .ok (v, t) → Exchanged a p s t v) ∧
    ∀ Q, (s.tcb p).utcb ≠ none → s.Disciplined p Q → s.UnwindsSafely p →
      ∃ v t, performExregs p a s = .ok (v, t) := by
  refine ⟨?_, fun Q hp h hsafe => exists_performExregs hp h hsafe⟩
  rw [← wp_iff_ok]
  exact wp_performExregs

def sampleExregs (control : Word) : ExregsArgs :=
  ⟨sampleTid 0, control, 0x7000, 0x1000, 1, 5, sampleTid 1, false⟩

/-- A polling thread gets a new stack pointer, and its IPC is cancelled. -/
theorem exists_exchanged : ∃ v t,
    performExregs sampleSender (sampleExregs 0xc) .oneSender = .ok (v, t) ∧
    Exchanged (sampleExregs 0xc) sampleSender .oneSender t v := by
  obtain ⟨hexchanged, hreturns⟩ := performExregs_exchanges (sampleExregs 0xc) sampleSender .oneSender
  have hpolling : (KState.oneSender.tcb sampleSender).state = .polling := by decide
  have hsafe : KState.oneSender.UnwindsSafely sampleSender := by
    refine ⟨fun q hq => ?_, fun hout => ?_⟩
    · rw [hpolling] at hq
      simp [KState.FindsReceiver, KState.FindsSender] at hq
    · exact absurd hout (by decide)
  obtain ⟨v, t, hrun⟩ := hreturns .oneSender (by decide) oneSender_disciplined hsafe
  exact ⟨v, t, hrun, hexchanged v t hrun⟩

/-- The sender in another state, the receiver in its page fault. -/
def KState.senderIn (st : ThreadState) : KState :=
  { KState.meeting with
    tcb := fun p =>
      if p = sampleSender then
        { KState.meeting.tcb p with state := st, partner := sampleTid 1 }
      else if p = sampleReceiver then
        { KState.meeting.tcb p with state := .lockedRunningNested, partner := sampleTid 0 }
      else KState.meeting.tcb p }

/-- The flags are selected; an inactive thread is to halt; the IPC is to be cancelled for a sender
that waits for the page fault of its receiver. -/
theorem exists_not_exchanged :
    (∃ v t, performExregs sampleSender (sampleExregs 0x20) .meeting = .ok (v, t) ∧
      (t.exregs sampleSender).flags ≠
        ((sampleExregs 0x20).select (KState.meeting.exregs sampleSender)).flags) ∧
    (∃ v t, performExregs sampleSender (sampleExregs 0x101) (.senderIn .aborted) = .ok (v, t) ∧
      (t.tcb sampleSender).state ≠ .halted) ∧
    ∃ v t, performExregs sampleSender (sampleExregs 6) (.senderIn .waitingTunneledPf) = .ok (v, t) ∧
      (t.tcb sampleSender).state = .waitingTunneledPf := by
  refine ⟨?_, ?_, ?_⟩
  · obtain ⟨v, t, hrun, hflags⟩ := exists_of_returnsWith (x := performExregs sampleSender
      (sampleExregs 0x20)) (P := fun _ t => (t.exregs sampleSender).flags == 0) (s := .meeting)
      (by decide +kernel)
    refine ⟨v, t, hrun, ?_⟩
    rw [beq_iff_eq.mp hflags]
    decide
  · obtain ⟨v, t, hrun, hst⟩ := exists_of_returnsWith (x := performExregs sampleSender
      (sampleExregs 0x101)) (P := fun _ t => (t.tcb sampleSender).state == .aborted)
      (s := .senderIn .aborted) (by decide +kernel)
    refine ⟨v, t, hrun, ?_⟩
    rw [beq_iff_eq.mp hst]
    decide
  · obtain ⟨v, t, hrun, hst⟩ := exists_of_returnsWith (x := performExregs sampleSender
      (sampleExregs 6)) (P := fun _ t => (t.tcb sampleSender).state == .waitingTunneledPf)
      (s := .senderIn .waitingTunneledPf) (by decide +kernel)
    exact ⟨v, t, hrun, beq_iff_eq.mp hst⟩

end L4Thread
