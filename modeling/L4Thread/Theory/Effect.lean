import L4Thread.Theory.Control

/-!
# What thread control does to its destination

`ControlEffect s a c` lists the identities `c` that a call with the arguments `a` can give to the TCB
of its destination id: the call is rejected, attaches an interrupt, or deletes, modifies or creates
the thread there. The conditions of each case are those the code checks before.
-/

namespace L4Thread

open TrapM Kernel

variable {s t : KState} {a : ThreadControlArgs} {p dest : TcbPtr}

/-! ## The branches of the call -/

/-- `check_utcb_location` holds of the thread in `p`. -/
def KState.locates (s : KState) (p : TcbPtr) (loc : Word) : Bool :=
  (s.tcb p).space.any fun sp => (s.space sp).checkUtcbLocation loc

/-- The call passes the checks of the caller and of the id of a user thread. -/
def KState.Accepts (s : KState) (a : ThreadControlArgs) : Prop :=
  s.Privileged ∧ a.destTid.isGlobal ∧ userBase ≤ a.destTid.getThreadno

/-- The call attaches or detaches an interrupt. -/
def KState.Attaches (s : KState) (a : ThreadControlArgs) : Prop :=
  s.Privileged ∧ a.destTid.isInterrupt ∧ isIrqAvailable a.destTid.getIrqno ∧
    ¬((s.tcb (getTcb a.destTid)).isActivated ∧ (s.tcb (getTcb a.destTid)).scheduler = a.pagerTid)

/-- The call deletes the thread in the slot of its destination. -/
def KState.Deletes (s : KState) (a : ThreadControlArgs) : Prop :=
  s.Accepts a ∧ a.spaceTid.isNilthread ∧ getTcb a.destTid ≠ s.currentTcb ∧
    (s.tcb (getTcb a.destTid)).isExisting

/-- The call modifies the thread in the slot of its destination, and may activate it. -/
def KState.Modifies (s : KState) (a : ThreadControlArgs) : Prop :=
  s.Accepts a ∧ a.spaceTid.isNilthread = false ∧ (s.tcb (getTcb a.destTid)).isExisting ∧
    (a.utcbLocation = noLocation ∨ (s.tcb (getTcb a.destTid)).isActivated = false ∧
      s.locates (getTcb a.destTid) a.utcbLocation) ∧
    (s.tcb (getTcb a.spaceTid)).myselfGlobal = a.spaceTid ∧
    (a.pagerTid.isNilthread ∨ (s.tcb (getTcb a.destTid)).isActivated ∨
      s.locates (getTcb a.destTid) a.utcbLocation)

/-- The call creates a thread in the slot of its destination. -/
def KState.Creates (s : KState) (a : ThreadControlArgs) : Prop :=
  s.Accepts a ∧ a.spaceTid.isNilthread = false ∧
    (s.tcb (getTcb a.destTid)).isExisting = false ∧ a.schedulerTid.isNilthread = false ∧
    (a.destTid = a.spaceTid ∨ (s.tcb (getTcb a.spaceTid)).myselfGlobal = a.spaceTid) ∧
    (a.pagerTid.isNilthread ∨ a.destTid ≠ a.spaceTid ∧
      ((s.tcb (getTcb a.spaceTid)).space.any fun sp => (s.space sp).isInitialized) ∧
      a.utcbLocation ≠ noLocation32 ∧ s.locates (getTcb a.spaceTid) a.utcbLocation)

/-- The space a creation puts its thread into, as the state before the call has it. -/
def KState.newSpace (s : KState) (a : ThreadControlArgs) : Option SpacePtr :=
  if a.destTid = a.spaceTid then (s.kmem.alloc sizeofSpace).map fun r => .heap r.1
  else (s.tcb (getTcb a.spaceTid)).space

instance : Decidable (s.Accepts a) := inferInstanceAs (Decidable (_ ∧ _))

instance : Decidable (s.Attaches a) := inferInstanceAs (Decidable (_ ∧ _))

instance : Decidable (s.Deletes a) := inferInstanceAs (Decidable (_ ∧ _))

instance : Decidable (s.Modifies a) := inferInstanceAs (Decidable (_ ∧ _))

instance : Decidable (s.Creates a) := inferInstanceAs (Decidable (_ ∧ _))

theorem KState.Creates.not_modifies (h : s.Creates a) : ¬s.Modifies a := by
  intro hm
  have hex := hm.2.2.1
  rw [h.2.2.1] at hex
  cases hex

theorem KState.Creates.not_deletes (h : s.Creates a) : ¬s.Deletes a := by
  intro hd
  have hnil := hd.2.1
  rw [h.2.1] at hnil
  cases hnil

/-- The identity a modification gives to `c`, with the UTCB `utcb` and the space `space`. -/
def TcbIdent.modified (c : TcbIdent) (a : ThreadControlArgs) (utcb : Option UtcbPtr)
    (space : Option SpacePtr) : TcbIdent where
  myselfGlobal := a.destTid
  myselfLocal := if a.utcbLocation = noLocation then c.myselfLocal else ⟨a.utcbLocation⟩
  utcb := utcb
  space := space
  scheduler := if a.schedulerTid.isNilthread then c.scheduler else a.schedulerTid

/-- The identity of a new thread. -/
def TcbIdent.created (a : ThreadControlArgs) (utcb : Option UtcbPtr) (space : Option SpacePtr) :
    TcbIdent where
  myselfGlobal := a.destTid
  myselfLocal := if a.utcbLocation = noLocation32 then .nilthread else ⟨a.utcbLocation⟩
  utcb := utcb
  space := space
  scheduler := a.schedulerTid

/-- The identities a call can give to the TCB of its destination. -/
inductive ControlEffect (s : KState) (a : ThreadControlArgs) : TcbIdent → Prop
  | rejected : ControlEffect s a (s.tcbIdent (getTcb a.destTid))
  /-- A rejected modification may have stored a location. -/
  | located (hinactive : (s.tcb (getTcb a.destTid)).isActivated = false) :
    ControlEffect s a { s.tcbIdent (getTcb a.destTid) with myselfLocal := ⟨a.utcbLocation⟩ }
  | irqCreated (h : s.Attaches a) (hinactive : (s.tcb (getTcb a.destTid)).isActivated = false) :
    ControlEffect s a ⟨a.destTid, .nilthread, some .irq, none, a.pagerTid⟩
  | attached (h : s.Attaches a) (hactive : (s.tcb (getTcb a.destTid)).isActivated) :
    ControlEffect s a { s.tcbIdent (getTcb a.destTid) with scheduler := a.pagerTid }
  | deleted (h : s.Deletes a) :
    ControlEffect s a
      ⟨.nilthread, .nilthread, none, none, (s.tcb (getTcb a.destTid)).scheduler⟩
  | modified (h : s.Modifies a) (utcb : Option UtcbPtr)
    (hutcb : utcb.isSome = ((s.tcb (getTcb a.destTid)).isActivated || !a.pagerTid.isNilthread))
    (hspace : (s.tcb (getTcb a.spaceTid)).isExisting)
    (hmove : (s.tcb (getTcb a.destTid)).space = (s.tcb (getTcb a.spaceTid)).space ∨
      (s.tcb (getTcb a.destTid)).isActivated) :
    ControlEffect s a
      ((s.tcbIdent (getTcb a.destTid)).modified a utcb (s.tcb (getTcb a.spaceTid)).space)
  | created (h : s.Creates a) (utcb : Option UtcbPtr) (sp : SpacePtr)
    (hutcb : utcb.isSome = !a.pagerTid.isNilthread)
    (hsp : s.newSpace a = some sp) : ControlEffect s a (.created a utcb (some sp))

/-! ## The parts of the call -/

theorem KState.isExisting_eq (h : t.tcbIdent p = s.tcbIdent p) :
    (t.tcb p).isExisting = (s.tcb p).isExisting :=
  congrArg (fun i : TcbIdent => i.space.isSome) h

/-- A part of the identity of the TCB `p`. -/
def KState.identPart {τ : Type} (g : TcbIdent → τ) (p : TcbPtr) (s : KState) : τ := g (s.tcbIdent p)

section Parts

variable {α τ : Type} {g : TcbIdent → τ} {x : Kernel α}

@[grind ←] theorem KeepsTcbIdent.identPart (h : KeepsTcbIdent x) :
    Keeps (KState.identPart g p) x :=
  h.comp fun i : TcbPtr → TcbIdent => g (i p)

@[grind ←] theorem KeepsIdent.identPart (h : KeepsIdent x) : Keeps (KState.identPart g p) x :=
  h.tcbIdent.identPart

@[grind ←] theorem keeps_identPart_modTcb {f : Tcb → Tcb} (h : ∀ c, g (f c).ident = g c.ident) :
    Keeps (KState.identPart g p) (modTcb p f) :=
  .modify fun s => by simp [KState.identPart, KState.tcbIdent, h]

end Parts

theorem wp_deleteTcb : wp (fun _ => True) (deleteTcb p) (fun _ t => t.tcbIdent p =
    ⟨.nilthread, .nilthread, none, none, (s.tcb p).scheduler⟩) s := by
  have hsched : Keeps (KState.identPart (·.scheduler) p) (deleteTcb p) := by
    unfold deleteTcb
    repeat' first | with_reducible refine Keeps.bind ?_ fun _ => ?_ | split
    all_goals grind
  have hrest : wp (fun _ => True) (deleteTcb p) (fun _ t => t.tcbIdent p =
      ⟨.nilthread, .nilthread, none, none, (t.tcb p).scheduler⟩) s := by
    rw [deleteTcb, wp_bind, wp_readTcb, wp_ite]
    split
    · refine wp_bind_of_forall fun _ _ => wp_bind_of_forall fun _ _ => ?_
      split
      · refine wp_bind_of_forall fun _ _ => wp_bind_of_forall fun _ _ => ?_
        simp [KState.tcbIdent, Tcb.ident]
      · refine wp_bind_of_forall fun _ _ => ?_
        simp [KState.tcbIdent, Tcb.ident]
    · simp_all [KState.tcbIdent, Tcb.ident, Tcb.isActivated]
  rw [wp_iff_ok] at hrest ⊢
  intro u t h
  rw [hrest u t h, TcbIdent.mk.injEq]
  exact ⟨rfl, rfl, rfl, rfl, hsched s u t h⟩

/-- Migration gives the thread a UTCB in its new space. -/
theorem wp_migrateToSpace {o : Option SpacePtr} :
    wp (fun _ => True) (migrateToSpace p o)
      (fun _ t => ∃ u, t.tcbIdent p = { s.tcbIdent p with utcb := some u, space := o }) s := by
  have hkeep : Keeps (KState.identPart (fun c => { c with utcb := none, space := none }) p)
      (migrateToSpace p o) := by
    unfold migrateToSpace
    repeat' first | with_reducible refine Keeps.bind ?_ fun _ => ?_ | split
    all_goals grind
  have hlast : wp (fun _ => True) (migrateToSpace p o)
      (fun _ t => ∃ u, (t.tcb p).utcb = some u ∧ (t.tcb p).space = o) s := by
    unfold migrateToSpace
    refine wp_bind_of_forall fun _ _ => wp_bind_of_forall fun _ _ => wp_bind_of_forall fun _ _ =>
      wp_bind_of_forall fun _ _ => wp_bind_of_forall fun _ _ => ?_
    split
    · refine wp_bind_of_forall fun _ _ => wp_bind_of_forall fun _ _ => wp_bind_of_forall fun _ _ =>
        wp_bind_of_forall fun _ _ => ?_
      simp [setSpace]
    · simp [setSpace]
  rw [wp_iff_ok] at hlast ⊢
  intro r t h
  obtain ⟨u, hu, ho⟩ := hlast r t h
  have hk := hkeep s r t h
  simp only [KState.identPart, KState.tcbIdent, Tcb.ident, TcbIdent.mk.injEq] at hk
  refine ⟨u, ?_⟩
  simp only [KState.tcbIdent, Tcb.ident, TcbIdent.mk.injEq]
  exact ⟨hk.1, hk.2.1, hu, ho, hk.2.2.2.2⟩

/-- Unwinding a thread reads its message tag first. -/
theorem wp_unwind_activated {reason : UnwindReason} :
    wp (fun _ => True) (unwind p reason) (fun _ _ => (s.tcb p).isActivated) s := by
  simp only [unwind, getTag, getMr, wp_bind, wp_readUtcb, Tcb.isActivated]
  refine ⟨fun _ => trivial, fun u hu => ?_⟩
  simp [hu, wp_iff_ok]

/-- Migration takes an activated thread to an existing space. -/
theorem wp_migrateToSpace_pre {o : Option SpacePtr} :
    wp (fun _ => True) (migrateToSpace p o) (fun _ _ => (s.tcb p).isActivated ∧ o.isSome) s := by
  rw [migrateToSpace, wp_bind, wp_readTcb, wp_bind]
  cases o with
  | none => simp [allocateUtcb, derefSpace]
  | some sp =>
    refine keepsTcbIdent_allocateUtcb.wp fun u t ht => ?_
    have hact : (t.tcb p).isActivated = (s.tcb p).isActivated :=
      congrArg (fun i : TcbPtr → TcbIdent => (i p).utcb.isSome) ht
    rw [wp_bind, ← hact]
    refine wp_mono wp_unwind_activated fun _ _ h => ?_
    simp [h, wp_iff_ok]

/-- Activation changes the UTCB of the identity only. -/
theorem wp_activate {n : Notify} {pager : ThreadId} :
    wp (fun _ => True) (activate p n pager)
      (fun _ t => ∃ u, t.tcbIdent p = { s.tcbIdent p with utcb := some u }) s := by
  rw [activate, wp_bind, wp_readTcb, wp_bind]
  refine keepsTcbIdent_allocateUtcb.wp fun u t ht => ?_
  have hp := congrFun ht p
  simp only [KState.tcbIdent, Tcb.ident, TcbIdent.mk.injEq] at hp
  simp [setGlobalId, setPager, setScheduler, createStartupStack, initStack, notify, pushFrame,
    wp_modUtcb, KState.tcbIdent, Tcb.ident, hp]

theorem wp_startThread {pager : ThreadId} :
    wp (fun _ => True) (startThread p pager)
      (fun _ t => ∃ u, t.tcbIdent p = { s.tcbIdent p with utcb := some u }) s := by
  rw [startThread, wp_bind]
  refine wp_mono wp_activate fun _ t ⟨u, ht⟩ => ?_
  refine (keepsIdent_fakeWaitForStartup (p := p)).wp fun _ t' ht' => ?_
  rw [KState.tcbIdent_eq ht', ht]
  exact ⟨u, rfl⟩

theorem KState.locates_of_space {sp : SpacePtr} (h : (s.tcb p).space = some sp) (loc : Word) :
    s.locates p loc = (s.space sp).checkUtcbLocation loc := by
  simp [KState.locates, h]

/-- The pager argument activates an inactive thread. -/
theorem wp_modifyPager_ident : wp (fun _ => True) (modifyPager dest a) (fun o t =>
    if o.isSome then t = s ∧ (s.tcb dest).isActivated = false else
      (∃ utcb, utcb.isSome = ((s.tcb dest).isActivated || !a.pagerTid.isNilthread) ∧
        t.tcbIdent dest = { s.tcbIdent dest with utcb := utcb }) ∧
      (a.pagerTid.isNilthread ∨ (s.tcb dest).isActivated ∨ s.locates dest a.utcbLocation)) s := by
  rw [modifyPager, wp_ite]
  split
  · rename_i hnil
    exact ⟨⟨_, by simp [hnil, Tcb.isActivated], rfl⟩, .inl hnil⟩
  · rename_i hnil
    rw [wp_bind, wp_readTcb, wp_ite]
    split
    · rename_i hact
      rw [wp_bind]
      refine keepsIdent_modUtcb.wp fun _ t ht => ?_
      rw [wp_pure, KState.tcbIdent_eq ht]
      exact ⟨⟨_, by simpa [hnil, Tcb.isActivated] using hact, rfl⟩, .inr (.inl hact)⟩
    · rename_i hact
      rw [wp_bind, wp_checkUtcbLocation]
      refine ⟨fun _ => trivial, fun sp hsp => ?_⟩
      split
      · rename_i hcheck
        rw [wp_bind]
        refine wp_mono wp_startThread fun _ t ⟨u, ht⟩ => ?_
        rw [wp_pure, ht]
        refine ⟨⟨some u, by simp [hnil], rfl⟩, .inr (.inr ?_)⟩
        rw [KState.locates_of_space hsp, hcheck]
      · simpa using hact

/-- The other arguments of a modification of `dest`, once the thread is in the right space. -/
theorem wp_modifySettings : wp (fun _ => True) (modifySettings dest a) (fun r t =>
    if r then
      (∃ utcb, utcb.isSome = ((s.tcb dest).isActivated || !a.pagerTid.isNilthread) ∧
        t.tcbIdent dest =
          { s.tcbIdent dest with
            myselfGlobal := a.destTid, utcb := utcb
            scheduler :=
              if a.schedulerTid.isNilthread then (s.tcb dest).scheduler else a.schedulerTid }) ∧
      (a.pagerTid.isNilthread ∨ (s.tcb dest).isActivated ∨ s.locates dest a.utcbLocation)
    else t.tcbIdent = s.tcbIdent ∧ (s.tcb dest).isActivated = false) s := by
  rw [modifySettings, wp_bind]
  refine wp_mono wp_modifyPager_ident fun o t ht => ?_
  cases o with
  | some err =>
    obtain ⟨rfl, hact⟩ := ht
    change wp _ (failWith err) _ _
    rw [wp_failWith]
    exact ⟨fun _ => trivial, fun u _ => ⟨rfl, hact⟩⟩
  | none =>
    obtain ⟨⟨utcb, hutcb, ht⟩, hor⟩ := ht
    simp only [KState.tcbIdent, Tcb.ident, TcbIdent.mk.injEq] at ht
    obtain ⟨h1, h2, h3, h4, h5⟩ := ht
    by_cases hs : a.schedulerTid.isNilthread <;> by_cases hg : (s.tcb dest).myselfGlobal = a.destTid
    all_goals
      simp [hs, hg, h1, h2, h3, h4, h5, setScheduler, setGlobalId, wp_modUtcb, KState.tcbIdent,
        Tcb.ident, hutcb, hor]

theorem wp_failWith_effect {err : Word} (h : ControlEffect s a (t.tcbIdent (getTcb a.destTid))) :
    wp (fun _ => True) (failWith err)
      (fun _ t => ControlEffect s a (t.tcbIdent (getTcb a.destTid))) t := by
  rw [wp_failWith]
  exact ⟨fun _ => trivial, fun _ _ => h⟩

theorem wp_threadDelete_effect (hacc : s.Accepts a) (hnil : a.spaceTid.isNilthread) :
    wp (fun _ => True) (threadDelete (getTcb a.destTid))
      (fun _ t => ControlEffect s a (t.tcbIdent (getTcb a.destTid))) s := by
  rw [threadDelete, wp_bind, wp_getCurrentTcb, wp_ite]
  split
  · exact wp_failWith_effect .rejected
  · rename_i hself
    rw [wp_bind, wp_readTcb, wp_ite]
    split
    · rename_i hex
      rw [wp_bind]
      refine wp_mono wp_deleteTcb fun _ t ht => ?_
      have hkeep : KeepsTcbIdent (do
          if ← removeTcb (s.tcb (getTcb a.destTid)).space then
            let sp ← derefSpace (s.tcb (getTcb a.destTid)).space
            unmapSpace sp
            freeSpace sp
          pure true) := by
        grind
      refine hkeep.wp fun _ t' ht' => ?_
      rw [ht', ht]
      exact .deleted ⟨hacc, hnil, hself, hex⟩
    · exact .rejected

/-- A modification whose location was accepted: `s` is the state before and `t` the state after
the location was stored. -/
theorem wp_modifyThread_effect {t : KState}
    (hmod : (a.pagerTid.isNilthread ∨ (s.tcb (getTcb a.destTid)).isActivated ∨
      s.locates (getTcb a.destTid) a.utcbLocation) → s.Modifies a)
    (hexisting : (s.tcb (getTcb a.destTid)).isExisting)
    (hact : (t.tcb (getTcb a.destTid)).isActivated = (s.tcb (getTcb a.destTid)).isActivated)
    (hlocates : t.locates (getTcb a.destTid) a.utcbLocation =
      s.locates (getTcb a.destTid) a.utcbLocation)
    (hident : t.tcbIdent (getTcb a.destTid) =
      { s.tcbIdent (getTcb a.destTid) with
        myselfLocal :=
          if a.utcbLocation = noLocation then (s.tcb (getTcb a.destTid)).myselfLocal
          else ⟨a.utcbLocation⟩ })
    (hrej : ControlEffect s a (t.tcbIdent (getTcb a.destTid))) :
    wp (fun _ => True) (modifyThread (getTcb a.destTid) a (s.tcb (getTcb a.spaceTid)).space)
      (fun _ t => ControlEffect s a (t.tcbIdent (getTcb a.destTid))) t := by
  rw [modifyThread, wp_bind, wp_readTcb, wp_ite]
  split
  · rw [wp_bind, wp_iff_ok]
    intro _ t1 h1
    obtain ⟨u, ht1⟩ := wp_iff_ok.mp wp_migrateToSpace _ t1 h1
    obtain ⟨hact1, hsp⟩ := wp_iff_ok.mp wp_migrateToSpace_pre _ t1 h1
    rw [hact] at hact1
    have ht1act : (t1.tcb (getTcb a.destTid)).isActivated = true := congrArg (·.utcb.isSome) ht1
    refine wp_mono wp_modifySettings fun r t2 ht2 => ?_
    split at ht2
    · obtain ⟨⟨utcb, hutcb, ht2⟩, -⟩ := ht2
      rw [ht1act, Bool.true_or] at hutcb
      have h := ControlEffect.modified (hmod (.inr (.inl hact1))) utcb (by simp [hutcb, hact1]) hsp
        (.inr hact1)
      convert h using 1
      rw [ht2, TcbIdent.modified]
      simp_all [KState.tcbIdent, Tcb.ident]
    · simp [ht1act] at ht2
  · rename_i hsp
    have hspace : (t.tcb (getTcb a.destTid)).space = (s.tcb (getTcb a.destTid)).space :=
      congrArg TcbIdent.space hident
    have heq := hspace.symm.trans (not_not.mp hsp)
    have hex : (s.tcb (getTcb a.spaceTid)).isExisting := by
      rw [Tcb.isExisting, ← heq]
      exact hexisting
    refine wp_mono wp_modifySettings fun r t' ht => ?_
    split at ht
    · obtain ⟨⟨utcb, hutcb, ht⟩, hor⟩ := ht
      rw [hact, hlocates] at hor
      rw [hact] at hutcb
      have h := ControlEffect.modified (hmod hor) utcb hutcb hex (.inl heq)
      convert h using 1
      rw [ht, TcbIdent.modified]
      simp_all [KState.tcbIdent, Tcb.ident]
    · rw [ht.1]
      exact hrej

theorem KState.withLocation_locates (loc loc' : Word) :
    (s.withLocation dest loc).locates p loc' = s.locates p loc' := by
  unfold KState.locates
  rw [KState.withLocation_space]
  rfl

theorem KState.withLocation_tcbIdent (loc : Word) :
    (s.withLocation dest loc).tcbIdent dest = { s.tcbIdent dest with myselfLocal := ⟨loc⟩ } := by
  simp [KState.withLocation, KState.tcbIdent, Tcb.ident]

theorem wp_threadModify_effect (hacc : s.Accepts a) (hnil : a.spaceTid.isNilthread = false)
    (hex : (s.tcb (getTcb a.destTid)).isExisting) :
    wp (fun _ => True) (threadModify (getTcb a.destTid) a)
      (fun _ t => ControlEffect s a (t.tcbIdent (getTcb a.destTid))) s := by
  rw [threadModify, wp_bind, wp_modifyUtcbLocation]
  split
  · rename_i hloc
    rw [if_pos rfl, wp_bind, wp_readTcb, wp_ite]
    split
    · exact wp_failWith_effect .rejected
    · rename_i hid
      refine wp_modifyThread_effect (fun hor => ?_) hex rfl rfl ?_ .rejected
      · exact ⟨hacc, hnil, hex, .inl hloc, by simpa using hid, hor⟩
      · simp [hloc, KState.tcbIdent, Tcb.ident]
  · rename_i hloc
    split
    · exact wp_failWith_effect .rejected
    · rename_i hact
      refine ⟨fun _ => trivial, fun sp hsp => ?_⟩
      split
      · rename_i hcheck
        have hact : (s.tcb (getTcb a.destTid)).isActivated = false := by simpa using hact
        have hrej := ControlEffect.located (a := a) hact
        rw [← KState.withLocation_tcbIdent] at hrej
        rw [if_pos rfl, wp_bind, wp_readTcb, wp_ite, KState.withLocation_myselfGlobal]
        split
        · exact wp_failWith_effect hrej
        · rename_i hid
          rw [KState.withLocation_space]
          refine wp_modifyThread_effect (fun hor => ?_) hex ?_ (KState.withLocation_locates _ _) ?_ hrej
          · exact ⟨hacc, hnil, hex, .inr ⟨hact, by rwa [KState.locates_of_space hsp]⟩,
              by simpa using hid, hor⟩
          · rw [Tcb.isActivated, KState.withLocation_utcb, Tcb.isActivated]
          · rw [KState.withLocation_tcbIdent, if_neg hloc]
      · exact wp_failWith_effect .rejected

theorem wp_threadControlInterrupt_effect (hpriv : s.Privileged) :
    wp (fun _ => True) (threadControlInterrupt a.destTid a.pagerTid)
      (fun _ t => ControlEffect s a (t.tcbIdent (getTcb a.destTid))) s := by
  unfold threadControlInterrupt
  dsimp only
  rw [wp_ite]
  split
  · exact .rejected
  · rename_i hirq
    rw [wp_bind, wp_readTcb, wp_ite]
    split
    · exact .rejected
    · rename_i hsame
      have hatt : s.Attaches a := ⟨hpriv, by simp_all, by simp_all, hsame⟩
      rw [wp_ite]
      split
      · rename_i hact
        have h := ControlEffect.irqCreated hatt (by simpa using hact)
        simp only [createKernelThread, setPriority, notify, pushFrame, setScheduler, setIntMask,
          setState, wp_bind, wp_init, wp_modTcb, wp_ite, wp_modify, wp_pure, KState.tcbIdent,
          Tcb.ident, Function.update_self]
        split
        · exact h
        · exact h
      · rename_i hact
        have h := ControlEffect.attached hatt (by simpa using hact)
        have htail : ∀ t : KState, t.tcbIdent = s.tcbIdent → wp (fun _ => True) (do
            setScheduler (getTcb a.destTid) a.pagerTid
            if a.destTid = a.pagerTid then
              setIntMask a.destTid.getIrqno false
              setState (getTcb a.destTid) .aborted
            else
              setState (getTcb a.destTid) .halted
              setIntMask a.destTid.getIrqno true
            pure true) (fun _ t => ControlEffect s a (t.tcbIdent (getTcb a.destTid))) t := by
          intro t ht
          rw [← ht] at h
          simp only [setScheduler, setIntMask, setState, wp_bind, wp_modTcb, wp_ite, wp_modify,
            wp_pure, KState.tcbIdent, Tcb.ident, Function.update_self]
          split
          · exact h
          · exact h
        rw [wp_ite]
        split
        · rw [wp_bind]
          exact keepsIdent_dequeueSend.wp fun _ t ht => htail t (KState.tcbIdent_eq ht)
        · exact htail s rfl

theorem wp_createCheck_creates (hacc : s.Accepts a) (hnil : a.spaceTid.isNilthread = false)
    (hex : (s.tcb (getTcb a.destTid)).isExisting = false) :
    wp (fun _ => True) (createCheck a) (fun o t => t = s ∧ (o = none → s.Creates a)) s := by
  simp only [createCheck, wp_bind, wp_readTcb, wp_ite, wp_pure, wp_readSpace,
    wp_checkUtcbLocation]
  split
  · simp
  · rename_i hsched
    split
    · simp
    · rename_i hspace
      have hspace : a.destTid = a.spaceTid ∨
          (s.tcb (getTcb a.spaceTid)).myselfGlobal = a.spaceTid := by tauto
      split
      · rename_i hpager
        exact ⟨trivial, fun _ => ⟨hacc, hnil, hex, by simpa using hsched, hspace, .inl hpager⟩⟩
      · split
        · simp
        · rename_i hne
          refine ⟨fun _ => trivial, fun sp hsp => ?_⟩
          repeat' split
          all_goals try simp
          rename_i hinit hloc
          intro sp' hsp' hcheck
          obtain rfl : sp = sp' := by simpa [hsp] using hsp'
          refine ⟨hacc, hnil, hex, by simpa using hsched, hspace, .inr ⟨hne, ?_, hloc, ?_⟩⟩
          · simpa [hsp] using hinit
          · rw [KState.locates_of_space hsp, hcheck]

theorem wp_allocateSpace {Q : SpacePtr → KState → Prop}
    (h : ∀ addr kmem, s.kmem.alloc sizeofSpace = some (addr, kmem) → Q (.heap addr)
      { s with kmem, space := Function.update s.space (.heap addr) .zero }) :
    wp (fun _ => True) allocateSpace Q s := by
  rw [allocateSpace, wp_bind, wp_gets]
  split
  · simp
  · rename_i addr kmem halloc
    simpa using h addr kmem halloc

theorem wp_newThreadSpace :
    wp (fun _ => True) (newThreadSpace a)
      (fun o t => o = s.newSpace a ∧ t.tcbIdent = s.tcbIdent) s := by
  rw [newThreadSpace, wp_ite]
  split
  · rename_i hne
    simp [KState.newSpace, hne]
  · rename_i heq
    have heq : a.destTid = a.spaceTid := by simpa using heq
    rw [wp_bind]
    refine wp_allocateSpace fun addr kmem halloc => ?_
    simp only [wp_pure, KState.newSpace, if_pos heq, halloc, Option.map_some]
    exact ⟨trivial, rfl⟩

/-- A thread of a creation behind the choice of its space. -/
theorem wp_createInSpace {o : Option SpacePtr} :
    wp (fun _ => True) (do
      setSpace dest o
      addTcb o
      if !a.pagerTid.isNilthread then startThread dest a.pagerTid) (fun _ t =>
      ∃ sp, o = some sp ∧ ∃ utcb,
        (if a.pagerTid.isNilthread then utcb = (s.tcb dest).utcb else utcb.isSome) ∧
        t.tcbIdent dest = { s.tcbIdent dest with utcb := utcb, space := some sp }) s := by
  simp only [setSpace, addTcb, wp_bind, wp_modTcb, wp_derefSpace, wp_modSpace, wp_ite, wp_pure]
  refine ⟨fun _ => trivial, fun sp ho => ?_⟩
  split
  · rename_i hpager
    refine wp_mono wp_startThread fun _ t hpost => ?_
    obtain ⟨u, ht⟩ := hpost
    refine ⟨sp, ho, some u, ?_, ?_⟩
    · simp_all
    · rw [ht]
      simp [KState.tcbIdent, Tcb.ident, ho]
  · refine ⟨sp, ho, (s.tcb dest).utcb, ?_, ?_⟩
    · simp_all
    · simp [KState.tcbIdent, Tcb.ident, ho]

theorem KState.newSpace_update {c : Tcb} {sp : SpacePtr} (hc : c.space = none)
    (h : { s with tcb := Function.update s.tcb dest c }.newSpace a = some sp) :
    s.newSpace a = some sp := by
  unfold KState.newSpace at h ⊢
  split
  · rename_i heq
    rwa [if_pos heq] at h
  · rename_i hne
    rw [if_neg hne] at h
    rcases eq_or_ne (getTcb a.spaceTid) dest with hd | hd
    · simp [hd, hc] at h
    · simpa [hd] using h

/-- The new thread of a creation, from its initialised TCB `c` on. -/
theorem wp_createFrom {c : Tcb} (hc : c.ident = .created a none none) :
    wp (fun _ => True) (do
      let space ← newThreadSpace a
      setSpace dest space
      addTcb space
      if !a.pagerTid.isNilthread then startThread dest a.pagerTid) (fun _ t =>
      ∃ sp utcb, utcb.isSome = !a.pagerTid.isNilthread ∧ s.newSpace a = some sp ∧
        t.tcbIdent dest = .created a utcb (some sp))
      { s with tcb := Function.update s.tcb dest c } := by
  have hspace : c.space = none := congrArg TcbIdent.space hc
  rw [wp_bind]
  refine wp_mono wp_newThreadSpace fun o t ht => ?_
  obtain ⟨rfl, ht⟩ := ht
  have htc : t.tcbIdent dest = .created a none none := by
    rw [ht, ← hc]
    simp [KState.tcbIdent]
  refine wp_mono wp_createInSpace fun _ t' hpost => ?_
  obtain ⟨sp, hsp, utcb, hutcb, ht'⟩ := hpost
  refine ⟨sp, utcb, ?_, KState.newSpace_update hspace hsp, ?_⟩
  · have hu : (t.tcb dest).utcb = none := congrArg TcbIdent.utcb htc
    cases hnil : a.pagerTid.isNilthread <;> simp_all
  · rw [ht', htc]
    rfl

/-- The new thread of a creation. -/
theorem wp_createThread : wp (fun _ => True) (createThread dest a) (fun _ t =>
    ∃ sp utcb, utcb.isSome = !a.pagerTid.isNilthread ∧ s.newSpace a = some sp ∧
      t.tcbIdent dest = .created a utcb (some sp)) s := by
  rw [createThread, wp_bind, createInactive, wp_bind, wp_init, wp_modTcb, wp_ite]
  simp only [Function.update_self, Function.update_idem]
  split
  · rename_i hloc
    simp only [setUtcbLocation]
    rw [wp_bind, wp_modTcb]
    simp only [Function.update_self, Function.update_idem]
    exact wp_createFrom (by simp [Tcb.ident, TcbIdent.created, Tcb.init, hloc])
  · rename_i hloc
    exact wp_createFrom (by simp_all [Tcb.ident, TcbIdent.created, Tcb.init])

theorem wp_threadCreate_effect (hacc : s.Accepts a) (hnil : a.spaceTid.isNilthread = false)
    (hex : (s.tcb (getTcb a.destTid)).isExisting = false) :
    wp (fun _ => True) (threadCreate (getTcb a.destTid) a)
      (fun _ t => ControlEffect s a (t.tcbIdent (getTcb a.destTid))) s := by
  rw [threadCreate, wp_bind]
  refine wp_mono (wp_createCheck_creates hacc hnil hex) fun o t ht => ?_
  obtain ⟨rfl, hcreates⟩ := ht
  cases o with
  | some err => exact wp_failWith_effect .rejected
  | none =>
    change wp _ (createThread _ a >>= fun _ => pure true) _ _
    rw [wp_bind]
    refine wp_mono wp_createThread fun _ t' hpost => ?_
    obtain ⟨sp, utcb, hutcb, hsp, ht'⟩ := hpost
    rw [wp_pure, ht']
    exact .created (hcreates rfl) utcb sp hutcb hsp

/-- The destination of a call has an identity from the list. -/
theorem sysThreadControl_effect {r : Bool} (h : sysThreadControl a s = .ok (r, t)) :
    ControlEffect s a (t.tcbIdent (getTcb a.destTid)) := by
  suffices wp (fun _ => True) (sysThreadControl a)
      (fun _ t => ControlEffect s a (t.tcbIdent (getTcb a.destTid))) s from
    wp_iff_ok.mp this r t h
  rw [wp_sysThreadControl]
  split
  · exact wp_failWith_effect .rejected
  · rename_i hpriv
    have hpriv : s.Privileged := by simpa using hpriv
    split
    · exact wp_failWith_effect .rejected
    · split
      · refine wp_mono (wp_threadControlInterrupt_effect hpriv) fun r t ht => ?_
        split
        · exact ht
        · exact wp_failWith_effect ht
      · split
        · exact wp_failWith_effect .rejected
        · have hacc : s.Accepts a := ⟨hpriv, by simp_all, by simp_all⟩
          split
          · exact wp_threadDelete_effect hacc ‹_›
          · split
            · exact wp_threadModify_effect hacc (by simp_all) ‹_›
            · exact wp_threadCreate_effect hacc (by simp_all) (by simp_all)

/-! ## Steps -/

@[grind ←] theorem keepsTcbIdent_initSpace {sp : SpacePtr} {f g : Fpage} :
    KeepsTcbIdent (initSpace sp f g) :=
  .modify fun _ => rfl

theorem keepsTcbIdent_sysSpaceControl {b : SpaceControlArgs} :
    KeepsTcbIdent (sysSpaceControl b) := by
  have hfail : ∀ err, KeepsTcbIdent (failWith err) := fun _ => keepsIdent_failWith.tcbIdent
  unfold sysSpaceControl isPrivilegedSpace isRoottaskSpace isSigma0Space isSigma1Space
    getCurrentSpace
  repeat' first | with_reducible refine Keeps.bind ?_ fun _ => ?_ | split
  all_goals grind

/-- A step is a thread control call or leaves the identity of all TCBs alone. -/
theorem KState.Step.tcbIdent {e : Event} (h : s.Step e t) :
    (∃ a r, e = .threadControl a ∧ sysThreadControl a s = .ok (r, t)) ∨
      t.tcbIdent = s.tcbIdent := by
  have hrun := (KState.step_iff.mp h).2
  cases e with
  | threadControl a =>
    obtain ⟨r, u, hr, hu⟩ := bind_eq_ok.mp hrun
    cases hu
    exact .inl ⟨a, r, rfl, hr⟩
  | spaceControl b =>
    obtain ⟨r, u, hr, hu⟩ := bind_eq_ok.mp hrun
    cases hu
    exact .inr (keepsTcbIdent_sysSpaceControl s r t hr)
  | _ => exact .inr (KState.tcbIdent_eq (h.ident rfl))

end L4Thread
