import L4Thread.Kernel.Boot

/-!
# Weakest preconditions of the state accesses

The simp set that runs a kernel computation symbolically: every access of `L4Thread.Kernel.State`
rewrites to its effect on the state. The reads and writes through UTCB and space pointers keep the
possibility of a trap.
-/

namespace L4Thread

open TrapM Kernel

variable {E : Trap → Prop} {α : Type} {s : KState} {p q : TcbPtr}

@[simp] theorem wp_getCurrentTcb {Q : TcbPtr → KState → Prop} :
    wp E getCurrentTcb Q s ↔ Q s.currentTcb s := .rfl

@[simp] theorem wp_readTcb {Q : Tcb → KState → Prop} : wp E (readTcb p) Q s ↔ Q (s.tcb p) s := .rfl

@[simp] theorem wp_modTcb {f : Tcb → Tcb} {Q : Unit → KState → Prop} :
    wp E (modTcb p f) Q s ↔ Q () { s with tcb := Function.update s.tcb p (f (s.tcb p)) } := .rfl

@[simp] theorem wp_modSpace {sp : SpacePtr} {f : Space → Space} {Q : Unit → KState → Prop} :
    wp E (modSpace sp f) Q s ↔
      Q () { s with space := Function.update s.space sp (f (s.space sp)) } := .rfl

@[simp] theorem wp_modKmem {f : Kmem → Kmem} {Q : Unit → KState → Prop} :
    wp E (modKmem f) Q s ↔ Q () { s with kmem := f s.kmem } := .rfl

@[simp] theorem wp_switchTo {Q : Unit → KState → Prop} :
    wp E (switchTo p) Q s ↔ Q () { s with currentTcb := p } := .rfl

theorem wp_derefSpace {o : Option SpacePtr} {Q : SpacePtr → KState → Prop} :
    wp E (derefSpace o) Q s ↔ (o = none → E .nullSpace) ∧ ∀ sp, o = some sp → Q sp s := by
  cases o <;> simp [derefSpace]

theorem wp_getUtcb {Q : UtcbPtr → KState → Prop} :
    wp E (getUtcb p) Q s ↔
      ((s.tcb p).utcb = none → E .nullUtcb) ∧ ∀ u, (s.tcb p).utcb = some u → Q u s := by
  simp only [getUtcb, wp_bind, wp_readTcb]
  cases (s.tcb p).utcb <;> simp

theorem wp_readUtcb {Q : Utcb → KState → Prop} :
    wp E (readUtcb p) Q s ↔
      ((s.tcb p).utcb = none → E .nullUtcb) ∧ ∀ u, (s.tcb p).utcb = some u → Q (s.utcb u) s := by
  simp [readUtcb, wp_getUtcb]

theorem wp_modUtcb {f : Utcb → Utcb} {Q : Unit → KState → Prop} :
    wp E (modUtcb p f) Q s ↔
      ((s.tcb p).utcb = none → E .nullUtcb) ∧ ∀ u, (s.tcb p).utcb = some u →
        Q () { s with utcb := Function.update s.utcb u (f (s.utcb u)) } := by
  simp [modUtcb, wp_getUtcb]

theorem wp_readSpace {o : Option SpacePtr} {Q : Space → KState → Prop} :
    wp E (readSpace o) Q s ↔
      (o = none → E .nullSpace) ∧ ∀ sp, o = some sp → Q (s.space sp) s := by
  simp [readSpace, wp_derefSpace]

/-! ## The UTCB of a thread -/

/-- The UTCB of the thread in `p`. -/
def KState.utcbOf (s : KState) (p : TcbPtr) : Utcb :=
  match (s.tcb p).utcb with
  | some u => s.utcb u
  | none => .zero

/-- A message register of the thread in `p`. -/
def KState.reg (s : KState) (p : TcbPtr) (i : Nat) : Word := (s.utcbOf p).mr i

/-- The tag of the message in the registers of `p`. -/
def KState.messageTag (s : KState) (p : TcbPtr) : MsgTag := ⟨s.reg p 0⟩

theorem KState.utcbOf_eq {u : UtcbPtr} (h : (s.tcb p).utcb = some u) : s.utcbOf p = s.utcb u := by
  simp [KState.utcbOf, h]

theorem wp_getTag {Q : MsgTag → KState → Prop} (h : Q (s.messageTag p) s) :
    wp (fun _ => True) (getTag p) Q s := by
  simp only [getTag, getMr, wp_bind, wp_readUtcb, wp_pure, implies_true, true_and]
  intro u hu
  simpa only [KState.messageTag, KState.reg, KState.utcbOf_eq hu] using h

theorem wp_readUtcb_of {Q : Utcb → KState → Prop} (h : Q (s.utcbOf p) s) :
    wp (fun _ => True) (readUtcb p) Q s := by
  rw [wp_readUtcb]
  refine ⟨fun _ => trivial, fun u hu => ?_⟩
  rwa [← KState.utcbOf_eq hu]

/-! ## Computations that do not hang -/

/-- A computation that may read a null pointer, and does not hang. -/
abbrev Quiet (x : Kernel α) : Prop := Throws (· ≠ .hang) x

theorem quiet_ofLinks {o : Option α} : Quiet (ofLinks o) := by
  cases o with
  | none => exact .trap nofun
  | some a => exact .pure a

theorem quiet_getUtcb : Quiet (getUtcb p) := fun s e h => by
  have hwp : wp (· ≠ Trap.hang) (getUtcb p) (fun _ _ => True) s :=
    wp_getUtcb.mpr ⟨fun _ => nofun, fun _ _ => trivial⟩
  exact wp_error hwp h

theorem quiet_readUtcb : Quiet (readUtcb p) := .bind quiet_getUtcb fun _ => .gets _

theorem quiet_modUtcb {f : Utcb → Utcb} : Quiet (modUtcb p f) :=
  .bind quiet_getUtcb fun _ => .modify _

theorem quiet_cancelTimeout : Quiet (cancelTimeout p) := by
  unfold cancelTimeout setWakeup setWakeupList
  refine .bind (.gets _) fun c => ?_
  split
  · refine .bind (.gets _) fun _ => .bind quiet_ofLinks fun _ => ?_
    exact .bind (.modify _) fun _ => .modify _
  · exact .pure ()

/-! ## Initialisation of a TCB -/

/-- What `tcb_t::init` makes of a TCB. -/
def Tcb.init (c : Tcb) (dest : ThreadId) : Tcb :=
  { c with
    utcb := none, space := none
    state := .aborted, savedState := .aborted
    partner := .nilthread, savedPartner := .nilthread
    myselfGlobal := dest, myselfLocal := .nilthread
    queueState := .zero, sendHead := none
    timesliceLength := defaultTimesliceLength.getMicroseconds
    currentTimeslice := defaultTimesliceLength.getMicroseconds
    totalQuantum := 0
    priority := defaultPriority, sensitivePrio := defaultPriority
    currentMaxDelay := 0, maxDelay := 0
    stack := [], userIp := 0, userSp := 0, userFlags := 0 }

@[simp] theorem wp_init {tid : ThreadId} {Q : Unit → KState → Prop} :
    wp E (Kernel.init p tid) Q s ↔
      Q () { s with tcb := Function.update s.tcb p ((s.tcb p).init tid) } := by
  simp only [Kernel.init, initTcb, initStack, setTimesliceLength, setTotalQuantum, setPriority,
    setSensitivePrio, setMaximumDelay, wp_bind, wp_modTcb, Function.update_self,
    Function.update_idem]
  rfl

/-! ## The privilege check -/

/-- The current space passes the privilege check. `is_sigma1_space` compares with `sigma0_space`. -/
def KState.Privileged (s : KState) : Prop :=
  s.current.space = s.roottaskSpace ∨ s.current.space = s.sigma0Space

instance (s : KState) : Decidable s.Privileged := inferInstanceAs (Decidable (_ ∨ _))

@[simp] theorem wp_getCurrentSpace {Q : Option SpacePtr → KState → Prop} :
    wp E getCurrentSpace Q s ↔ Q s.current.space s := by
  simp [getCurrentSpace, KState.current]

theorem KState.decide_privileged (s : KState) :
    decide s.Privileged =
      (decide (s.current.space = s.roottaskSpace) || decide (s.current.space = s.sigma0Space)) := by
  rw [Bool.eq_iff_iff, decide_eq_true_iff, KState.Privileged]
  simp

@[simp] theorem wp_isPrivilegedSpace {Q : Bool → KState → Prop} :
    wp E (isPrivilegedSpace s.current.space) Q s ↔ Q (decide s.Privileged) s := by
  simp [isPrivilegedSpace, isRoottaskSpace, isSigma0Space, isSigma1Space, s.decide_privileged]

/-! ## Thread control -/

theorem wp_failWith {err : Word} {Q : Bool → KState → Prop} :
    wp E (failWith err) Q s ↔ (s.current.utcb = none → E .nullUtcb) ∧
      ∀ u, s.current.utcb = some u →
        Q false { s with utcb := Function.update s.utcb u { s.utcb u with errorCode := err } } := by
  simp [failWith, setErrorCode, wp_modUtcb, KState.current]

theorem wp_checkUtcbLocation {loc : Word} {Q : Bool → KState → Prop} :
    wp E (checkUtcbLocation p loc) Q s ↔ ((s.tcb p).space = none → E .nullSpace) ∧
      ∀ sp, (s.tcb p).space = some sp → Q ((s.space sp).checkUtcbLocation loc) s := by
  simp [checkUtcbLocation, wp_readSpace]

/-- The branches of `SYS_THREAD_CONTROL`. -/
theorem wp_sysThreadControl {a : ThreadControlArgs} {Q : Bool → KState → Prop} :
    wp E (sysThreadControl a) Q s ↔
      if ¬s.Privileged then wp E (failWith enoPrivilege) Q s
      else if a.destTid.isGlobal = false then wp E (failWith einvalidSpace) Q s
      else if a.destTid.getThreadno < systemBase then
        wp E (threadControlInterrupt a.destTid a.pagerTid)
          (fun r t => if r then Q true t else wp E (failWith einvalidThread) Q t) s
      else if a.destTid.getThreadno < userBase then wp E (failWith einvalidThread) Q s
      else if a.spaceTid.isNilthread then wp E (threadDelete (getTcb a.destTid)) Q s
      else if (s.tcb (getTcb a.destTid)).isExisting then
        wp E (threadModify (getTcb a.destTid) a) Q s
      else wp E (threadCreate (getTcb a.destTid) a) Q s := by
  simp only [sysThreadControl, wp_bind, wp_getCurrentSpace, wp_isPrivilegedSpace, wp_ite, wp_pure,
    wp_readTcb, Bool.not_eq_true', decide_eq_false_iff_not]

/-- The state with a new UTCB location of `p`. -/
def KState.withLocation (s : KState) (p : TcbPtr) (loc : Word) : KState :=
  { s with tcb := Function.update s.tcb p { s.tcb p with myselfLocal := ⟨loc⟩ } }

theorem KState.withLocation_myselfGlobal (loc : Word) :
    ((s.withLocation p loc).tcb q).myselfGlobal = (s.tcb q).myselfGlobal := by
  rcases eq_or_ne q p with rfl | h
  · simp [KState.withLocation]
  · simp [KState.withLocation, h]

theorem KState.withLocation_utcb (loc : Word) :
    ((s.withLocation p loc).tcb q).utcb = (s.tcb q).utcb := by
  rcases eq_or_ne q p with rfl | h
  · simp [KState.withLocation]
  · simp [KState.withLocation, h]

theorem KState.withLocation_space (loc : Word) :
    ((s.withLocation p loc).tcb q).space = (s.tcb q).space := by
  rcases eq_or_ne q p with rfl | h
  · simp [KState.withLocation]
  · simp [KState.withLocation, h]

theorem wp_modifyUtcbLocation {loc : Word} {Q : Bool → KState → Prop} :
    wp E (modifyUtcbLocation p loc) Q s ↔
      if loc = noLocation then Q true s
      else if (s.tcb p).isActivated then Q false s
      else ((s.tcb p).space = none → E .nullSpace) ∧
        ∀ sp, (s.tcb p).space = some sp →
          if (s.space sp).checkUtcbLocation loc then Q true (s.withLocation p loc)
          else Q false s := by
  simp [modifyUtcbLocation, wp_checkUtcbLocation, setUtcbLocation, KState.withLocation]

/-- The branches of `SYS_SPACE_CONTROL`. -/
theorem wp_sysSpaceControl {a : SpaceControlArgs} {Q : Bool → KState → Prop} :
    wp E (sysSpaceControl a) Q s ↔
      if ¬s.Privileged then wp E (failWith enoPrivilege) Q s
      else if a.spaceTid.isGlobal = false then wp E (failWith einvalidSpace) Q s
      else if (s.tcb (getTcb a.spaceTid)).myselfGlobal ≠ a.spaceTid then
        wp E (failWith einvalidSpace) Q s
      else ((s.tcb (getTcb a.spaceTid)).space = none → E .nullSpace) ∧
        ∀ sp, (s.tcb (getTcb a.spaceTid)).space = some sp →
          if (s.space sp).isInitialized then Q true s
          else if a.utcbArea.getSize < BitVec.ofNat 64 utcbMinimalSize ∨
              !Space.isUserAreaFpage a.utcbArea then wp E (failWith eutcbArea) Q s
          else if a.kipArea.getSize < (1 : Word) <<< kipAreaSizeLog2 ∨
              !Space.isUserAreaFpage a.kipArea ∨ a.kipArea.isOverlapping a.utcbArea then
            wp E (failWith ekipArea) Q s
          else Q true { s with
            space := Function.update s.space sp
              { s.space sp with utcbArea := a.utcbArea, kipArea := a.kipArea } } := by
  simp only [sysSpaceControl, wp_bind, wp_getCurrentSpace, wp_isPrivilegedSpace, wp_ite, wp_pure,
    wp_readTcb, wp_derefSpace, wp_gets, initSpace, wp_modSpace, Bool.not_eq_true',
    decide_eq_false_iff_not]

end L4Thread
