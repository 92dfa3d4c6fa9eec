import L4Thread.Theory.FindNext

/-!
# Expired timeouts

What `parse_wakeup_queues` makes of the wakeup queue: the expired threads are taken out in one round
and woken, whatever they are doing, unless they wait for ever; a second round, after an expired last
thread, finds nothing.
-/

namespace L4Thread

open TrapM Kernel Ring

variable {E : Trap → Prop} {s t : KState} {p q current highest : TcbPtr} {Q : Queues}

/-! ## One expired thread -/

/-- The timeout in the TCB has passed. -/
def KState.expired (s : KState) (p : TcbPtr) : Bool :=
  decide ((s.tcb p).absoluteTimeout ≤ s.currentTime)

namespace Tcb

/-- A thread that waits for ever has a timeout only by a transfer; else the entry is a stale one. -/
def waitsForever (c : Tcb) : Bool := c.state.isWaitingForever && !c.hasXferTimeout

/-- The thread sends or receives. -/
def inTransfer (c : Tcb) : Bool := c.state.isSending || c.state.isReceiving

/-- What the wakeup makes of the TCB of an expired thread. -/
def wakened (c : Tcb) : Tcb :=
  if c.waitsForever then { c with queueState := { c.queueState with wakeup := false } }
  else
    { c with
      queueState := { c.queueState with wakeup := false, ready := true }
      hasXferTimeout := false
      stack := if c.inTransfer then .notify (.ipcTimeout c.state) :: c.stack else c.stack
      state := .running }

theorem wakened_utcb (c : Tcb) : c.wakened.utcb = c.utcb := by
  rw [wakened]
  split <;> rfl

theorem wakened_priority (c : Tcb) : c.wakened.priority = c.priority := by
  rw [wakened]
  split <;> rfl

theorem wakened_currentMaxDelay (c : Tcb) : c.wakened.currentMaxDelay = c.currentMaxDelay := by
  rw [wakened]
  split <;> rfl

theorem wakened_absoluteTimeout (c : Tcb) : c.wakened.absoluteTimeout = c.absoluteTimeout := by
  rw [wakened]
  split <;> rfl

end Tcb

theorem wp_enqueueReady_tcb {b : Bool} : wp (fun _ => True) (enqueueReady p b) (fun _ t =>
    t.tcb = Function.update s.tcb p
      { s.tcb p with queueState := { (s.tcb p).queueState with ready := true } } ∧
    t.utcb = s.utcb ∧ t.currentTime = s.currentTime) s := by
  rw [enqueueReady, wp_bind, wp_readTcb, wp_ite]
  split
  · rename_i hbit
    refine ⟨(Function.update_eq_self_iff.mpr ?_).symm, rfl, rfl⟩
    rw [← hbit]
  · rw [wp_bind, wp_gets, wp_bind]
    cases (if b then Ring.enqueueHead ((id s).prioQueue (s.tcb p).priority) (id s).readyList p
        else Ring.enqueueTail ((id s).prioQueue (s.tcb p).priority) (id s).readyList p) with
    | none => trivial
    | some r => exact ⟨rfl, rfl, rfl⟩

theorem wp_cancelTimeout_tcb (hbit : (s.tcb p).queueState.wakeup) :
    wp (fun _ => True) (cancelTimeout p) (fun _ t =>
      t.tcb = Function.update s.tcb p
        { s.tcb p with queueState := { (s.tcb p).queueState with wakeup := false } } ∧
      t.utcb = s.utcb ∧ t.currentTime = s.currentTime) s := by
  rw [cancelTimeout, wp_bind, wp_readTcb, wp_ite, if_pos hbit, wp_bind, wp_gets, wp_bind]
  cases Ring.dequeue (id s).wakeupList (id s).waitList p with
  | none => trivial
  | some r => exact ⟨rfl, rfl, rfl⟩

/-- The thread delays its preemption. -/
def KState.DelayActive (s : KState) (p : TcbPtr) : Prop :=
  (s.utcbOf p).preemptFlags.isDelayed ∧ (s.tcb p).currentMaxDelay ≠ 0

/-- The dispatch decision is one by priorities, unless the preemption is delayed. -/
theorem wp_checkDispatchThread (hact : (s.tcb highest).isActivated) :
    wp E (checkDispatchThread highest p) (fun b t => t = s ∧ (¬s.DelayActive highest →
      b = decide ((s.tcb highest).priority < (s.tcb p).priority))) s := by
  obtain ⟨u, hu⟩ := Option.isSome_iff_exists.mp hact
  have hflags : s.utcbOf highest = s.utcb u := KState.utcbOf_eq hu
  rw [checkDispatchThread, wp_bind, wp_readUtcb]
  refine ⟨fun hno => ?_, fun v hv => ?_⟩
  · rw [hu] at hno
    cases hno
  · rw [hu] at hv
    cases hv
    rw [wp_bind, wp_readTcb, wp_ite]
    split
    · rename_i hdelay
      have hactive : s.DelayActive highest := by rwa [KState.DelayActive, hflags]
      rw [delayPreemption, wp_bind, wp_ite]
      split
      · exact ⟨rfl, fun hno => absurd hactive hno⟩
      · exact ⟨rfl, fun hno => absurd hactive hno⟩
    · exact ⟨rfl, fun _ => rfl⟩

/-- The expired thread is made ready; the other ones have a stale entry. -/
def KState.woken (s : KState) (p : TcbPtr) : Bool := s.expired p && !(s.tcb p).waitsForever

/-- What a wakeup has done: one TCB is changed. -/
structure KState.Wakened (s t : KState) (p : TcbPtr) : Prop where
  tcb : t.tcb = Function.update s.tcb p (s.tcb p).wakened
  utcb : t.utcb = s.utcb
  currentTime : t.currentTime = s.currentTime

theorem KState.Wakened.expired (h : s.Wakened t p) : t.expired = s.expired := by
  funext q
  rw [KState.expired, KState.expired, h.tcb, h.currentTime]
  rcases eq_or_ne q p with rfl | hq
  · rw [Function.update_self, Tcb.wakened_absoluteTimeout]
  · rw [Function.update_of_ne hq]

theorem KState.Wakened.woken (h : s.Wakened t p) (hq : q ≠ p) : t.woken q = s.woken q := by
  rw [KState.woken, KState.woken, h.expired, h.tcb, Function.update_of_ne hq]

theorem KState.Wakened.priority (h : s.Wakened t p) :
    (t.tcb q).priority = (s.tcb q).priority := by
  rw [h.tcb]
  rcases eq_or_ne q p with rfl | hq
  · rw [Function.update_self, Tcb.wakened_priority]
  · rw [Function.update_of_ne hq]

theorem KState.Wakened.tcb_utcb (h : s.Wakened t p) : (t.tcb q).utcb = (s.tcb q).utcb := by
  rw [h.tcb]
  rcases eq_or_ne q p with rfl | hq
  · rw [Function.update_self, Tcb.wakened_utcb]
  · rw [Function.update_of_ne hq]

theorem KState.Wakened.delayActive (h : s.Wakened t p) : t.DelayActive q ↔ s.DelayActive q := by
  have hmax : (t.tcb q).currentMaxDelay = (s.tcb q).currentMaxDelay := by
    rw [h.tcb]
    rcases eq_or_ne q p with rfl | hq
    · rw [Function.update_self, Tcb.wakened_currentMaxDelay]
    · rw [Function.update_of_ne hq]
  rw [KState.DelayActive, KState.DelayActive, KState.utcbOf, KState.utcbOf, h.tcb_utcb, h.utcb,
    hmax]

/-- The thread to be dispatched after a wakeup. -/
def KState.Dispatches (s : KState) (highest p r : TcbPtr) : Prop :=
  if (s.tcb p).waitsForever then r = highest
  else (r = p ∨ r = highest) ∧
    (¬s.DelayActive highest → (s.tcb p).priority ≤ (s.tcb r).priority ∧
      (s.tcb highest).priority ≤ (s.tcb r).priority)

/-- A TCB is changed outside its part in the queues. -/
theorem KState.Represents.setTcb {c : Tcb} (h : s.Represents Q)
    (hc : c.queued = (s.tcb p).queued) :
    ({ s with tcb := Function.update s.tcb p c } : KState).Represents Q := by
  refine h.congr ?_
  simp only [KState.queues, QueuePart.mk.injEq, and_true]
  funext q
  rcases eq_or_ne q p with rfl | hq
  · rw [Function.update_self, hc]
  · rw [Function.update_of_ne hq]

/-- An expired thread is taken out of the wakeup queue and woken. -/
theorem wp_wakeupExpired (h : s.Represents Q) (hp : p ∈ Q.wakeup)
    (hact : (s.tcb highest).isActivated) :
    wp (fun _ => False) (wakeupExpired highest p) (fun r t =>
      (∃ ready, t.Represents { Q with ready, wakeup := Q.wakeup.erase p }) ∧ s.Wakened t p ∧
        s.Dispatches highest p r) s := by
  have hbit : (s.tcb p).queueState.wakeup = true := (h.wakeupBit p).mp hp
  rw [wakeupExpired, wp_bind, wp_readTcb, wp_ite]
  split
  · rename_i hstale
    have hstale : (s.tcb p).waitsForever = true := by simpa [Tcb.waitsForever] using hstale
    rw [wp_bind]
    refine wp_mono (wp_and (wp_cancelTimeout_queues h) (wp_cancelTimeout_tcb hbit)) ?_
    rintro _ t ⟨ht, htcb, hutcb, htime⟩
    refine ⟨⟨Q.ready, ht⟩, ⟨?_, hutcb, htime⟩, ?_⟩
    · rw [htcb, Tcb.wakened, if_pos hstale]
    · rw [KState.Dispatches, if_pos hstale]
  · rename_i hstale
    have hstale : (s.tcb p).waitsForever = false := by simpa [Tcb.waitsForever] using hstale
    rw [wp_bind]
    refine wp_mono (wp_checkDispatchThread hact) ?_
    rintro higher r ⟨hr, hhigher⟩
    obtain rfl : s = r := hr.symm
    rw [wp_bind]
    refine wp_mono (wp_and (wp_cancelTimeout_queues h) (wp_cancelTimeout_tcb hbit)) ?_
    rintro _ t ⟨ht, htcb, hutcb, htime⟩
    have hdispatch : s.Dispatches highest p (if higher then p else highest) := by
      rw [KState.Dispatches, hstale, if_neg Bool.false_ne_true]
      refine ⟨by cases higher <;> simp, fun hno => ?_⟩
      rw [hhigher hno]
      split
      · rename_i hlt
        simp only [decide_eq_true_eq] at hlt
        exact ⟨Int.le_refl _, Int.le_of_lt hlt⟩
      · rename_i hge
        simp only [decide_eq_true_eq] at hge
        exact ⟨Int.not_lt.mp hge, Int.le_refl _⟩
    have hend : ∀ {c : Tcb}, c.queued = (t.tcb p).queued →
        { c with queueState := { c.queueState with ready := true } } = (s.tcb p).wakened →
        wp (fun _ => False) (do
          enqueueReady p false
          pure (if higher then p else highest))
          (fun r t => (∃ ready, t.Represents { Q with ready, wakeup := Q.wakeup.erase p }) ∧
            s.Wakened t p ∧ s.Dispatches highest p r)
          { t with tcb := Function.update t.tcb p c } := by
      intro c hqueued hc
      rw [wp_bind]
      refine wp_mono (wp_and (wp_enqueueReady_queues (ht.setTcb hqueued)) wp_enqueueReady_tcb) ?_
      rintro _ r ⟨⟨ready, hr, -⟩, htcb', hutcb', htime'⟩
      refine ⟨⟨ready, hr⟩, ⟨?_, hutcb'.trans hutcb, htime'.trans htime⟩, hdispatch⟩
      simp only [Function.update_self, Function.update_idem] at htcb'
      rw [htcb', htcb, Function.update_idem]
      exact congrArg (Function.update s.tcb p) hc
    have hself : t.tcb p =
        { s.tcb p with queueState := { (s.tcb p).queueState with wakeup := false } } := by
      rw [htcb, Function.update_self]
    rw [wp_bind, wp_modTcb]
    dsimp only
    rw [wp_ite]
    split
    · rename_i htransfer
      have htransfer : (s.tcb p).inTransfer = true := by simpa [Tcb.inTransfer] using htransfer
      rw [wp_bind, notify, pushFrame, wp_modTcb, wp_bind, setState, wp_modTcb]
      simp only [Function.update_self, Function.update_idem]
      refine hend rfl ?_
      rw [Tcb.wakened, hstale, if_neg Bool.false_ne_true, hself, htransfer]
      rfl
    · rename_i htransfer
      have htransfer : (s.tcb p).inTransfer = false := by simpa [Tcb.inTransfer] using htransfer
      rw [wp_bind, setState, wp_modTcb]
      simp only [Function.update_self, Function.update_idem]
      refine hend rfl ?_
      rw [Tcb.wakened, hstale, if_neg Bool.false_ne_true, hself, htransfer]
      rfl

/-! ## The loop -/

/-- The place behind a member of the wakeup queue, as a list from the member on. -/
theorem KState.Represents.waitNext {K T : List TcbPtr} (h : s.Represents Q)
    (hQ : Q.wakeup = K ++ p :: T) : (s.waitList p).next = (T ++ K ++ [p]).head? := by
  have hcyc : Cyc s.waitList (p :: T ++ K) := Cyc.rotate (hQ ▸ h.wakeup.cyc)
  have hchain := hcyc.chain
  rw [List.cons_append, List.head?_cons, Option.toList_some, List.cons_append] at hchain
  cases hrest : T ++ K ++ [p] with
  | nil => simp at hrest
  | cons q L =>
    rw [hrest] at hchain
    exact (List.isChain_cons_cons.mp hchain).1.1

/-- A member behind the first one is not the head. -/
theorem ne_head_of_nodup {K T : List TcbPtr} (h : (K ++ p :: q :: T).Nodup) :
    some q ≠ (K ++ p :: q :: T).head? := by
  cases K with
  | nil =>
    rintro ⟨⟩
    simp at h
  | cons k K =>
    rintro ⟨⟩
    simp at h

/-- The loop at a thread whose timeout has not passed. -/
theorem wp_parseLoop_kept {fuel : Nat} {K T : List TcbPtr} {P : TcbPtr → KState → Prop}
    (h : s.Represents Q) (hQ : Q.wakeup = K ++ p :: T) (hp : s.expired p = false)
    (hnil : T = [] → P highest s)
    (hcons : ∀ q T', T = q :: T' → wp E (parseLoop fuel highest q) P s) :
    wp E (parseLoop (fuel + 1) highest p) P s := by
  have hp : decide ((s.tcb p).absoluteTimeout ≤ s.currentTime) = false := hp
  have hhead : s.wakeupList = (K ++ p :: T).head? := hQ ▸ h.wakeup.head_eq
  have hnext : (s.waitList p).next = (T ++ K ++ [p]).head? := h.waitNext hQ
  have hmember : ∃ q, s.wakeupList = some q := by
    rw [hhead]
    cases K with
    | nil => exact ⟨p, rfl⟩
    | cons k K => exact ⟨k, rfl⟩
  obtain ⟨first, hfirst⟩ := hmember
  simp only [parseLoop, wp_bind, wp_gets, hp, Bool.false_eq_true, if_false, wp_pure, hfirst,
    or_false]
  rw [wp_ite]
  cases T with
  | nil =>
    have hstop : (s.waitList p).next = some first := by
      rw [hnext, ← hfirst, hhead, List.nil_append]
    rw [if_neg (not_not_intro hstop)]
    exact hnil rfl
  | cons q T =>
    have hgo : (s.waitList p).next ≠ some first := by
      rw [hnext, ← hfirst, hhead]
      exact ne_head_of_nodup (hQ ▸ h.wakeup.cyc.nodup)
    rw [if_pos hgo, wp_bind, hnext]
    exact hcons q T rfl

/-- A round in which no thread is expired changes nothing. -/
theorem wp_parseLoop_quiet {fuel : Nat} {K T : List TcbPtr} (h : s.Represents Q)
    (hQ : Q.wakeup = K ++ p :: T) (hnone : ∀ q ∈ p :: T, s.expired q = false)
    (hfuel : T.length < fuel) :
    wp E (parseLoop fuel highest p) (fun x t => x = highest ∧ t = s) s := by
  induction T generalizing K p fuel with
  | nil =>
    obtain ⟨fuel, rfl⟩ := Nat.exists_eq_succ_of_ne_zero (Nat.ne_of_gt hfuel)
    refine wp_parseLoop_kept h hQ (hnone p List.mem_cons_self) (fun _ => ⟨rfl, rfl⟩) ?_
    rintro q T' ⟨⟩
  | cons q T ih =>
    obtain ⟨fuel, rfl⟩ := Nat.exists_eq_succ_of_ne_zero (Nat.ne_zero_of_lt hfuel)
    refine wp_parseLoop_kept h hQ (hnone p List.mem_cons_self) nofun ?_
    rintro _ _ ⟨⟩
    refine ih (K := K ++ [p]) ?_ (fun x hx => hnone x (List.mem_cons_of_mem p hx)) ?_
    · rw [hQ, List.append_assoc, List.singleton_append]
    · exact Nat.lt_of_succ_lt_succ hfuel

/-- The loop at an expired thread: it goes on behind the removed member, in a circle. -/
theorem wp_parseLoop_woken {fuel : Nat} {K T : List TcbPtr} {P : TcbPtr → KState → Prop}
    (h : s.Represents Q) (hQ : Q.wakeup = K ++ p :: T) (hp : s.expired p = true)
    (hact : (s.tcb highest).isActivated)
    (hnext : ∀ r t ready, t.Represents { Q with ready, wakeup := K ++ T } → s.Wakened t p →
      s.Dispatches highest p r →
      match (T ++ K).head? with
      | none => P r t
      | some q => wp (fun _ => False) (parseLoop fuel r q) P t) :
    wp (fun _ => False) (parseLoop (fuel + 1) highest p) P s := by
  have hp : decide ((s.tcb p).absoluteTimeout ≤ s.currentTime) = true := hp
  have hwait : (s.waitList p).next = (T ++ K ++ [p]).head? := h.waitNext hQ
  have hmem : p ∈ Q.wakeup := by simp [hQ]
  have hnot : p ∉ K := by
    have hnodup : (K ++ p :: T).Nodup := hQ ▸ h.wakeup.cyc.nodup
    intro hK
    exact (List.nodup_append.mp hnodup).2.2 p hK p List.mem_cons_self rfl
  have herase : Q.wakeup.erase p = K ++ T := by
    rw [hQ, List.erase_append_right _ hnot, List.erase_cons_head]
  simp only [parseLoop, wp_bind, wp_gets, hp, if_true]
  refine wp_mono (wp_wakeupExpired h hmem hact) ?_
  rintro r t ⟨⟨ready, ht⟩, hwakened, hdispatch⟩
  rw [herase] at ht
  have hnext := hnext r t ready ht hwakened hdispatch
  have hhead : t.wakeupList = (K ++ T).head? := ht.wakeup.head_eq
  cases hrest : T ++ K with
  | nil =>
    obtain ⟨rfl, rfl⟩ := List.append_eq_nil_iff.mp hrest
    simp only [hhead, List.append_nil, List.head?_nil]
    exact hnext
  | cons q L =>
    have hmember : ∃ first, t.wakeupList = some first := by
      rw [hhead]
      cases K with
      | nil =>
        rw [List.append_nil] at hrest
        exact ⟨q, by rw [hrest, List.nil_append, List.head?_cons]⟩
      | cons k K => exact ⟨k, rfl⟩
    obtain ⟨first, hfirst⟩ := hmember
    simp only [hfirst, hwait, hrest, List.cons_append, List.head?_cons, or_true, if_true]
    rw [hrest] at hnext
    exact hnext

/-! ## The loop -/

/-- `r` is one of the threads `L`, and if none of them delays its preemption, no other has a higher
priority. -/
structure KState.Best (s : KState) (L : List TcbPtr) (r : TcbPtr) : Prop where
  mem : r ∈ L
  maximal : (∀ q ∈ L, ¬s.DelayActive q) → ∀ q ∈ L, (s.tcb q).priority ≤ (s.tcb r).priority

/-- The members `L` of the wakeup queue have been looked at, with the result `r` and `t`; the
others are not expired. -/
structure KState.Parsed (s : KState) (Q : Queues) (highest : TcbPtr) (L : List TcbPtr)
    (r : TcbPtr) (t : KState) : Prop where
  queues : ∃ ready, t.Represents { Q with ready, wakeup := Q.wakeup.filter (!s.expired ·) }
  tcb : t.tcb = fun q => if q ∈ L ∧ s.expired q then (s.tcb q).wakened else s.tcb q
  best : s.Best (highest :: L.filter s.woken) r

theorem KState.Parsed.refl (h : s.Represents Q) (hnone : ∀ q ∈ Q.wakeup, s.expired q = false) :
    s.Parsed Q highest [] highest s where
  queues := by
    refine ⟨Q.ready, ?_⟩
    rw [List.filter_eq_self.mpr fun q hq => by rw [hnone q hq, Bool.not_false]]
    exact h
  tcb := by simp
  best := by
    refine ⟨List.mem_cons_self, fun _ q hq => ?_⟩
    rw [List.mem_singleton.mp hq]

/-- One more member that is not expired. -/
theorem KState.Parsed.kept {L : List TcbPtr} {r : TcbPtr} (h : s.Parsed Q highest L r t)
    (hp : s.expired p = false) : s.Parsed Q highest (p :: L) r t where
  queues := h.queues
  tcb := by
    rw [h.tcb]
    funext q
    rcases eq_or_ne q p with rfl | hq
    · simp [hp]
    · simp [hq]
  best := by
    have hno : s.woken p = false := by rw [KState.woken, hp, Bool.false_and]
    rw [List.filter_cons_of_neg (by simp [hno])]
    exact h.best

/-- The choice among the later threads, made from the choice before. -/
theorem KState.Wakened.best {u : KState} {L M : List TcbPtr} {r x : TcbPtr} (h : s.Wakened u p)
    (hd : s.Dispatches highest p r) (hM : M = if s.woken p then p :: L else L)
    (hp : s.expired p = true) (hbest : u.Best (r :: L) x) : s.Best (highest :: M) x := by
  have hlow : ∀ y z, (u.tcb y).priority ≤ (u.tcb z).priority →
      (s.tcb y).priority ≤ (s.tcb z).priority := by
    intro y z hle
    rwa [h.priority, h.priority] at hle
  cases hw : (s.tcb p).waitsForever with
  | true =>
    rw [KState.Dispatches, if_pos hw] at hd
    rw [KState.woken, hw, hp] at hM
    subst hd hM
    refine ⟨hbest.mem, fun hno q hq => hlow q x (hbest.maximal (fun y hy => ?_) q hq)⟩
    rw [h.delayActive]
    exact hno y hy
  | false =>
    rw [KState.Dispatches, hw, if_neg Bool.false_ne_true] at hd
    rw [KState.woken, hw, hp] at hM
    obtain ⟨hr, hd⟩ := hd
    have hsub : ∀ y ∈ r :: L, y ∈ highest :: p :: L := by
      intro y hy
      rcases hr with rfl | rfl
      · exact List.mem_cons_of_mem _ hy
      · rcases List.mem_cons.mp hy with rfl | hy
        · exact List.mem_cons_self
        · exact List.mem_cons_of_mem _ (List.mem_cons_of_mem _ hy)
    subst hM
    refine ⟨hsub x hbest.mem, fun hno q hq => ?_⟩
    have hmax : ∀ y ∈ r :: L, (s.tcb y).priority ≤ (s.tcb x).priority := by
      refine fun y hy => hlow y x (hbest.maximal (fun z hz => ?_) y hy)
      rw [h.delayActive]
      exact hno z (hsub z hz)
    have hboth := hd (hno highest List.mem_cons_self)
    have hrx := hmax r List.mem_cons_self
    rcases List.mem_cons.mp hq with rfl | hq
    · exact Int.le_trans hboth.2 hrx
    · rcases List.mem_cons.mp hq with rfl | hq
      · exact Int.le_trans hboth.1 hrx
      · exact hmax q (List.mem_cons_of_mem _ hq)

/-- One more member, the first one to be woken. -/
theorem KState.Parsed.woken {K L : List TcbPtr} {u : KState} {r x : TcbPtr}
    {ready : Int → List TcbPtr} (hp : s.expired p = true) (hQ : Q.wakeup = K ++ p :: L)
    (hnot : p ∉ L) (hw : s.Wakened u p) (hd : s.Dispatches highest p r)
    (h : u.Parsed { Q with ready, wakeup := K ++ L } r L x t) :
    s.Parsed Q highest (p :: L) x t where
  queues := by
    obtain ⟨ready', ht⟩ := h.queues
    refine ⟨ready', ?_⟩
    rw [hw.expired] at ht
    rw [hQ, List.filter_append, List.filter_cons_of_neg (by simp [hp]), ← List.filter_append]
    exact ht
  tcb := by
    rw [h.tcb, hw.expired]
    funext q
    rcases eq_or_ne q p with rfl | hq
    · simp [hp, hnot, hw.tcb]
    · simp [hq, hw.tcb]
  best := by
    refine hw.best hd (L := L.filter u.woken) ?_ hp h.best
    have hsame : L.filter u.woken = L.filter s.woken := by
      refine List.filter_congr fun q hq => hw.woken ?_
      rintro rfl
      exact hnot hq
    rw [hsame]
    split
    · rename_i hyes
      rw [List.filter_cons_of_pos hyes]
    · rename_i hno
      rw [List.filter_cons_of_neg hno]

/-- The loop from member `p` on. -/
theorem wp_parseLoop {fuel : Nat} {K T : List TcbPtr} (h : s.Represents Q)
    (hQ : Q.wakeup = K ++ p :: T) (hK : ∀ q ∈ K, s.expired q = false)
    (hact : ∀ q ∈ highest :: p :: T, (s.tcb q).isActivated)
    (hfuel : T.length + 1 + (K.length + T.length) ≤ fuel) :
    wp (fun _ => False) (parseLoop fuel highest p) (s.Parsed Q highest (p :: T)) s := by
  induction T generalizing K p s highest fuel Q with
  | nil =>
    obtain ⟨fuel, rfl⟩ : ∃ n, fuel = n + 1 := ⟨fuel - 1, by omega⟩
    cases hp : s.expired p with
    | false =>
      refine wp_parseLoop_kept h hQ hp (fun _ => ?_) (fun q T' hcons => by cases hcons)
      refine (KState.Parsed.refl h fun q hq => ?_).kept hp
      rcases List.mem_append.mp (hQ ▸ hq) with hq | hq
      · exact hK q hq
      · rwa [List.mem_singleton.mp hq]
    | true =>
      refine wp_parseLoop_woken h hQ hp (hact highest List.mem_cons_self) ?_
      intro r u ready hu hw hd
      have hnone : ∀ q ∈ K ++ [], u.expired q = false := by
        rw [hw.expired, List.append_nil]
        exact hK
      have hend : s.Parsed Q highest [p] r u :=
        (KState.Parsed.refl hu hnone).woken hp hQ List.not_mem_nil hw hd
      cases K with
      | nil => exact hend
      | cons k K =>
        refine wp_mono (wp_parseLoop_quiet (K := []) (T := K) hu ?_ ?_ ?_) ?_
        · exact List.append_nil _
        · simpa using hnone
        · rw [List.length_nil, List.length_cons] at hfuel
          omega
        · rintro x t ⟨rfl, rfl⟩
          exact hend
  | cons q T ih =>
    obtain ⟨fuel, rfl⟩ : ∃ n, fuel = n + 1 := ⟨fuel - 1, by omega⟩
    rw [List.length_cons] at hfuel
    have hrest : ∀ x ∈ q :: T, x ∈ p :: q :: T := fun _ => List.mem_cons_of_mem p
    cases hp : s.expired p with
    | false =>
      refine wp_parseLoop_kept h hQ hp (fun hnil => by cases hnil) ?_
      rintro _ _ ⟨⟩
      refine wp_mono (ih h (K := K ++ [p]) ?_ ?_ ?_ ?_) fun r t ht => ht.kept hp
      · rw [hQ, List.append_assoc, List.singleton_append]
      · intro x hx
        rcases List.mem_append.mp hx with hx | hx
        · exact hK x hx
        · rwa [List.mem_singleton.mp hx]
      · intro x hx
        rcases List.mem_cons.mp hx with rfl | hx
        · exact hact x List.mem_cons_self
        · exact hact x (List.mem_cons_of_mem _ (hrest x hx))
      · rw [List.length_append, List.length_singleton]
        omega
    | true =>
      have hnot : p ∉ q :: T :=
        (List.nodup_cons.mp (List.nodup_append.mp (hQ ▸ h.wakeup.cyc.nodup)).2.1).1
      refine wp_parseLoop_woken h hQ hp (hact highest List.mem_cons_self) ?_
      intro r u ready hu hw hd
      refine wp_mono (ih hu rfl ?_ ?_ ?_) fun x t ht => ht.woken hp hQ hnot hw hd
      · rw [hw.expired]
        exact hK
      · have hr : r = p ∨ r = highest := by
          rw [KState.Dispatches] at hd
          split at hd
          · exact .inr hd
          · exact hd.1
        intro x hx
        rw [Tcb.isActivated, hw.tcb_utcb]
        rcases List.mem_cons.mp hx with rfl | hx
        · rcases hr with rfl | rfl
          · exact hact _ (List.mem_cons_of_mem _ List.mem_cons_self)
          · exact hact _ List.mem_cons_self
        · exact hact x (List.mem_cons_of_mem _ (hrest x hx))
      · omega

/-! ## The wakeup -/

theorem length_le_numTcbs {L : List TcbPtr} (h : L.Nodup) : L.length ≤ numTcbs := by
  have herase : (L.erase .idle).length < numTcbs :=
    length_lt_numTcbs (h.erase _) fun hmem => (List.Nodup.mem_erase_iff h).mp hmem |>.1 rfl
  rw [List.length_erase] at herase
  split at herase <;> omega

/-- The wakeup returns, with the whole queue looked at. -/
theorem wp_parseWakeupQueues (h : s.Represents Q)
    (hact : ∀ q ∈ current :: Q.wakeup, (s.tcb q).isActivated) :
    wp (fun _ => False) (parseWakeupQueues current) (s.Parsed Q current Q.wakeup) s := by
  have hhead : s.wakeupList = Q.wakeup.head? := h.wakeup.head_eq
  have hlen : Q.wakeup.length ≤ numTcbs := length_le_numTcbs h.wakeup.cyc.nodup
  rw [parseWakeupQueues, wp_bind, wp_gets, hhead]
  cases hQ : Q.wakeup with
  | nil => exact .refl h fun q hq => by simp [hQ] at hq
  | cons p T =>
    rw [hQ] at hact hlen
    rw [List.length_cons] at hlen
    refine wp_parseLoop h hQ (fun q hq => absurd hq List.not_mem_nil) hact ?_
    rw [List.length_nil]
    omega

/-- The timeout is one the thread waits for: of its message, or of a string transfer. -/
def Tcb.liveTimeout (c : Tcb) : Bool :=
  c.state == .waitingTimeout || c.state == .polling || c.hasXferTimeout

/-- What a wakeup should do, from `s` to `t` with the choice `r`. -/
structure KState.WakesUp (s : KState) (Q : Queues) (current r : TcbPtr) (t : KState) : Prop where
  /-- Whose timeout lies ahead stays, in order, and a live timeout that has passed makes ready. -/
  queues : ∃ ready, t.Represents { Q with
      ready, wakeup := Q.wakeup.filter fun p => decide (s.currentTime < (s.tcb p).absoluteTimeout) } ∧
    ∀ p ∈ Q.wakeup, s.expired p → (s.tcb p).liveTimeout → p ∈ ready (s.tcb p).priority
  live : ∀ p ∈ Q.wakeup, s.expired p → (s.tcb p).liveTimeout → (t.tcb p).state = .running ∧
    (t.tcb p).stack = .notify (.ipcTimeout (s.tcb p).state) :: (s.tcb p).stack
  /-- Other entries do not matter to the thread. -/
  stale : ∀ p ∈ Q.wakeup, s.expired p → (s.tcb p).liveTimeout = false →
    (t.tcb p).state = (s.tcb p).state
  best : s.Best (current :: Q.wakeup.filter s.woken) r

/-- An entry the wakeup is made for: the message or transfer of a live one is under way, and the
thread of a stale one runs or waits for ever. -/
def Tcb.TimeoutFits (c : Tcb) : Prop :=
  if c.liveTimeout then c.inTransfer = true
  else c.state = .running ∨ c.state = .waitingForever

instance (c : Tcb) : Decidable c.TimeoutFits :=
  inferInstanceAs (Decidable (if c.liveTimeout then _ else _))

theorem Tcb.not_waitsForever {c : Tcb} (h : c.liveTimeout) : c.waitsForever = false := by
  rw [liveTimeout] at h
  rw [waitsForever, ThreadState.isWaitingForever]
  cases hx : c.hasXferTimeout with
  | true => simp
  | false =>
    rw [hx, Bool.or_false, Bool.or_eq_true, beq_iff_eq, beq_iff_eq] at h
    rcases h with h | h <;> rw [h] <;> rfl

/-- `parse_wakeup_queues` returns, and wakes up as it should, exactly if every passed timeout is
one the wakeup is made for. -/
theorem parseWakeupQueues_wakesUp_iff (h : s.Represents Q)
    (hact : ∀ q ∈ current :: Q.wakeup, (s.tcb q).isActivated) :
    (∃ r t, parseWakeupQueues current s = .ok (r, t) ∧ s.WakesUp Q current r t) ↔
      ∀ p ∈ Q.wakeup, s.expired p → (s.tcb p).TimeoutFits := by
  obtain ⟨r, t, hrun, hparsed⟩ := wp_iff_exists.mp (wp_parseWakeupQueues h hact)
  have htcb : ∀ p ∈ Q.wakeup, s.expired p → t.tcb p = (s.tcb p).wakened := by
    intro p hp hexp
    rw [hparsed.tcb]
    exact if_pos ⟨hp, hexp⟩
  constructor
  · rintro ⟨r', t', hrun', hwakes⟩ p hp hexp
    rw [hrun] at hrun'
    obtain ⟨rfl, rfl⟩ : r = r' ∧ t = t' := by simpa using hrun'
    rw [Tcb.TimeoutFits]
    split
    · rename_i hlive
      obtain ⟨-, hstack⟩ := hwakes.live p hp hexp hlive
      by_contra hno
      rw [htcb p hp hexp, Tcb.wakened, Tcb.not_waitsForever hlive, if_neg Bool.false_ne_true]
        at hstack
      simp only [hno] at hstack
      exact List.cons_ne_self _ _ hstack.symm
    · rename_i hlive
      have hstate := hwakes.stale p hp hexp (by simpa using hlive)
      rw [htcb p hp hexp, Tcb.wakened] at hstate
      split at hstate
      · rename_i hforever
        rw [Tcb.waitsForever, Bool.and_eq_true, ThreadState.isWaitingForever, beq_iff_eq]
          at hforever
        exact .inr hforever.1
      · exact .inl hstate.symm
  · intro hfits
    refine ⟨r, t, hrun, ?_, ?_, ?_, hparsed.best⟩
    · obtain ⟨ready, ht⟩ := hparsed.queues
      have hfilter : (Q.wakeup.filter fun p => decide (s.currentTime < (s.tcb p).absoluteTimeout)) =
          Q.wakeup.filter (!s.expired ·) := by
        refine List.filter_congr fun p _ => ?_
        rw [KState.expired, ← decide_not]
        exact decide_eq_decide.mpr BitVec.not_le.symm
      refine ⟨ready, ?_, fun p hp hexp hlive => (ht.readyBit p _).mpr ?_⟩
      · rw [hfilter]
        exact ht
      · rw [htcb p hp hexp, Tcb.wakened, Tcb.not_waitsForever hlive, if_neg Bool.false_ne_true]
        exact ⟨rfl, rfl⟩
    · intro p hp hexp hlive
      have hfit := hfits p hp hexp
      rw [Tcb.TimeoutFits, if_pos hlive] at hfit
      rw [htcb p hp hexp, Tcb.wakened, Tcb.not_waitsForever hlive, if_neg Bool.false_ne_true]
      exact ⟨rfl, if_pos hfit⟩
    · intro p hp hexp hlive
      have hfit := hfits p hp hexp
      rw [Tcb.TimeoutFits, hlive, if_neg Bool.false_ne_true] at hfit
      rw [htcb p hp hexp, Tcb.wakened]
      split
      · rfl
      · rename_i hforever
        rcases hfit with hfit | hfit
        · exact hfit.symm
        · rw [Tcb.liveTimeout, Bool.or_eq_false_iff] at hlive
          rw [Tcb.waitsForever, hfit, hlive.2] at hforever
          exact absurd rfl hforever

/-- One thread in the wakeup queue, next to the idle thread; its timeout has passed. -/
def KState.oneSleeping (p : TcbPtr) (state : ThreadState) : KState :=
  { KState.zero .sample with
    tcb := fun q =>
      if q = p then { Tcb.zero with state, utcb := some .kernel, queueState := ⟨false, true, false⟩ }
      else if q = .idle then { Tcb.zero with utcb := some .idle }
      else .zero
    waitList := fun q => if q = p then ⟨some p, some p⟩ else ⟨none, none⟩
    wakeupList := some p }

theorem KState.oneSleeping_represents (p : TcbPtr) (state : ThreadState) :
    (oneSleeping p state).Represents ⟨fun _ => [], [p], fun _ => []⟩ := by
  have hqueue : ∀ q, ((oneSleeping p state).tcb q).queueState = ⟨false, q = p, false⟩ := by
    intro q
    simp only [oneSleeping]
    split
    · rename_i hq
      simp [hq]
    · rename_i hq
      split <;> simp [hq, Tcb.zero, QueueState.zero]
  have hhead : ∀ q, ((oneSleeping p state).tcb q).sendHead = none := by
    intro q
    simp only [oneSleeping]
    split
    · rfl
    · split <;> rfl
  refine ⟨⟨fun n => ⟨rfl, .nil⟩, fun h => by cases h⟩, fun q n => ?_, ⟨rfl, ?_⟩, fun q => ?_,
    ⟨fun o => ⟨hhead o, .nil⟩, fun h => by cases h⟩, fun q => ?_⟩
  · simp [hqueue]
  · exact Cyc.singleton_iff.mpr (if_pos rfl)
  · simp [hqueue]
  · simp [hqueue]

theorem KState.oneSleeping_isActivated (state : ThreadState) (hp : p ≠ .idle) :
    ∀ q ∈ TcbPtr.idle :: [p], ((oneSleeping p state).tcb q).isActivated := by
  intro q hq
  rcases List.mem_cons.mp hq with rfl | hq
  · simp [oneSleeping, hp.symm, Tcb.isActivated]
  · simp [oneSleeping, List.mem_singleton.mp hq, Tcb.isActivated]

/-- A polling thread is woken up as it should be. -/
theorem exists_wakesUp : ∃ (s t : KState) (p r : TcbPtr), s.expired p ∧
    parseWakeupQueues .idle s = .ok (r, t) ∧
    s.WakesUp ⟨fun _ => [], [p], fun _ => []⟩ .idle r t := by
  have h := KState.oneSleeping_represents (getTcb sigma0Tid) .polling
  have hact := KState.oneSleeping_isActivated (p := getTcb sigma0Tid) .polling nofun
  obtain ⟨r, t, hrun, hwakes⟩ := (parseWakeupQueues_wakesUp_iff h hact).mpr fun p hp _ => by
    rw [List.mem_singleton.mp hp]
    decide +kernel
  exact ⟨_, t, getTcb sigma0Tid, r, by decide +kernel, hrun, hwakes⟩

/-- A halted thread with a passed timeout left in the queue runs again. -/
theorem not_forall_wakesUp : ¬∀ (s : KState) (Q : Queues) (current : TcbPtr), s.Represents Q →
    (∀ q ∈ current :: Q.wakeup, (s.tcb q).isActivated) →
    ∃ r t, parseWakeupQueues current s = .ok (r, t) ∧ s.WakesUp Q current r t := by
  intro hall
  have h := KState.oneSleeping_represents (getTcb sigma0Tid) .halted
  have hact := KState.oneSleeping_isActivated (p := getTcb sigma0Tid) .halted nofun
  obtain ⟨r, t, hrun, hwakes⟩ := hall _ _ _ h hact
  have hparsed := wp_ok (wp_parseWakeupQueues h hact) hrun
  have hstate := hwakes.stale (getTcb sigma0Tid) List.mem_cons_self (by decide +kernel)
    (by decide +kernel)
  rw [hparsed.tcb] at hstate
  revert hstate
  decide +kernel

end L4Thread
