import L4Thread.Kernel.Handshake
import L4Thread.Lib.Run

/-!
# The handshake of an IPC between two processors

What the two threads and the messages in flight have to do with each other, by the phase the
receiver is in. A sender that is about to enqueue itself must not be missed by a receiver that looks
into its send queue, and a status that an earlier answer has left must not be taken for the answer.
-/

namespace L4Thread.Handshake

variable {sameSpace : Bool} {s t : State} {spec : FromSpec}

/-! ## The property -/

namespace State

/-- The sender waits to be told to send. -/
def SenderBlocked (s : State) : Prop :=
  (s.sPc = .blocked ∨ s.sPc = .requested) ∧ s.sState.isPolling = true

/-- The receiver waits for the sender. -/
def ReceiverBlocked (sameSpace : Bool) (s : State) : Prop :=
  s.rPc = .waiting ∧ (s.rState = .lockedWaiting ∨
    s.rState.isWaiting = true ∧ s.rPartner.any (·.accepts sameSpace) = true)

/-- Each of the two waits for the other one, and nothing is in flight. -/
def Deadlocked (sameSpace : Bool) (s : State) : Prop :=
  s.SenderBlocked ∧ s.ReceiverBlocked sameSpace ∧ s.toSender = [] ∧ s.toReceiver = []

structure Safe (sameSpace : Bool) (s : State) : Prop where
  transfer : s.sPc = .transfer → s.rState = .lockedWaiting ∧ s.rPartner = some .sender
  fault : s.fault = false
  live : ¬s.Deadlocked sameSpace

/-- The receiver is about to look into its send queue for a sender that it would accept, and that
has found it not waiting but is not in the queue yet. -/
def Misses (sameSpace : Bool) (s : State) : Prop :=
  (s.rPc = .findSender .anythread ∨ s.rPc = .findSender .anylocalthread ∧ sameSpace = true) ∧
    s.sPc = .enqueue

/-- The sender is about to be woken by `do_xcpu_receive`, which leaves `xcpu_status` alone. -/
def Stale (s : State) : Prop :=
  s.toSender.head? = some .receive ∧ s.sPc = .requested ∧ s.status ≠ 0

/-- Neither of the two races is run into. -/
def Ordered (sameSpace : Bool) (s : State) : Event → Prop
  | .receiverStep => ¬s.Misses sameSpace
  | .handleSender => ¬s.Stale
  | _ => True

instance : Decidable (s.Deadlocked sameSpace) := by
  unfold Deadlocked SenderBlocked ReceiverBlocked
  infer_instance

instance : Decidable (s.Misses sameSpace) := by
  unfold Misses
  infer_instance

instance : Decidable s.Stale := by
  unfold Stale
  infer_instance

instance (e : Event) : Decidable (s.Ordered sameSpace e) := by
  cases e <;> (unfold Ordered; infer_instance)

/-! ## Phases -/

/-- The sender is polling on the receiver. -/
def Polls (s : State) : Prop := s.sState = .polling ∧ s.sPartner = true

/-- The sender is between two sends. -/
def Calm (s : State) : Prop :=
  s.sPc = .user ∨ s.sPc = .setPartner ∨ s.sPc = .setPolling ∨ s.sPc = .setRunning

/-- The sender looks at the receiver, or waits in its queue. -/
def Looking (s : State) : Prop :=
  s.sPc = .readState ∨ s.sPc = .readPartner ∨ s.sPc = .request ∨ s.sPc = .enqueue ∨
    s.sPc = .blocked ∧ s.Polls

/-- The sender has not seen the receiver wait. -/
def Unseen (s : State) : Prop :=
  s.Calm ∨ s.sPc = .readState ∨ s.sPc = .enqueue ∨ s.sPc = .blocked ∧ s.Polls

/-- No message is in flight. -/
def Quiet (s : State) : Prop := s.toSender = [] ∧ s.toReceiver = []

/-- The sender has seen the receiver wait, and has told it. -/
def Sent (s : State) : Prop :=
  s.toSender = [] ∧ s.toReceiver = [.send] ∧ s.sPc = .requested ∧ s.Polls

/-- The receiver waits, and has not decided. -/
def Meeting (s : State) : Prop := s.Quiet ∧ (s.Calm ∨ s.Looking) ∨ s.Sent

/-- The receiver has seen the sender poll: through its queue, or because it waits for no one else. -/
def Committed (s : State) : Prop :=
  s.Quiet ∧ (s.sPc = .blocked ∧ s.Polls ∨ s.rPartner = some .sender ∧ s.Looking) ∨
    s.rPartner = some .sender ∧ s.Sent

/-- The receiver has not seen the sender poll, so that a sender it accepts sees it wait. -/
def Passed (sameSpace : Bool) (s : State) : Prop :=
  s.Quiet ∧ (s.Calm ∨ s.Looking) ∧
      (s.rPartner.any (·.accepts sameSpace) = true → s.sPc ≠ .enqueue ∧ s.sPc ≠ .blocked) ∨
    s.Sent

/-- The receiver waits for a local thread, which `do_xcpu_send` does not know of. -/
def Refused (s : State) : Prop :=
  s.rPartner = some .anylocalthread ∧ s.toReceiver = [] ∧
    (s.toSender = [.sendReply 1] ∧ s.sPc = .requested ∧ s.Polls ∨
      s.toSender = [] ∧ s.status ≠ 0 ∧
        (s.sPc = .requested ∧ s.sState = .lockedRunning ∨ s.sPc = .readStatus))

/-- The receiver has asked for the message. -/
def Asked (s : State) : Prop :=
  s.toSender = [.receive] ∧
    (s.toReceiver = [] ∧ (s.sPc = .blocked ∧ s.Polls ∨ s.rPartner = some .sender ∧ s.Looking) ∨
      s.rPartner = some .sender ∧ (s.toReceiver = [] ∨ s.toReceiver = [.send]) ∧
        s.sPc = .requested ∧ s.Polls)

/-- The receiver has answered the request. -/
def Answered (s : State) : Prop :=
  s.toSender = [.sendReply 0] ∧ s.toReceiver = [] ∧ s.rPartner = some .sender ∧
    s.sPc = .requested ∧ s.Polls

/-- The sender may transfer its message. -/
def Granted (s : State) : Prop :=
  s.toSender = [] ∧
    (s.toReceiver = [] ∧ (s.sPc = .blocked ∧ s.sState = .lockedRunning ∨ s.sPc = .dequeue ∨
        s.sPc = .tellPartner) ∨
      s.rPartner = some .sender ∧ (s.toReceiver = [] ∨ s.toReceiver = [.send]) ∧
        (s.status = 0 ∧ (s.sPc = .requested ∧ s.sState = .lockedRunning ∨ s.sPc = .readStatus) ∨
          s.sPc = .tellPartner ∨ s.sPc = .transfer ∨ s.sPc = .done))

/-- The message is transferred, and the receiver is not told yet. -/
def Transferred (s : State) : Prop :=
  s.toSender = [] ∧ s.rPartner = some .sender ∧
    (s.toReceiver = [.sendDone] ∨ s.toReceiver = [.send, .sendDone]) ∧ s.Unseen

/-- The sender, and what is in flight, by the phase of the receiver. -/
def Joint (sameSpace : Bool) (s : State) : Prop :=
  match s.rPc with
  | .user | .setPartner _ | .setWaiting _ => s.Quiet ∧ s.Unseen
  | .findSender _ => s.Meeting
  | .readState _ => s.rPartner = some .sender ∧ s.Meeting ∨ s.Quiet ∧ s.sPc = .blocked ∧ s.Polls
  | .readPartner _ | .lock | .request => s.Committed
  | .blockState _ | .blockPartner _ => s.Passed sameSpace
  | .waiting =>
    s.rState = .running ∧ s.Quiet ∧ s.Unseen ∨
      s.rState = .waitingForever ∧ (s.Passed sameSpace ∨ s.Refused) ∨
      s.rState = .lockedWaiting ∧ (s.Asked ∨ s.Answered ∨ s.Granted ∨ s.Transferred)

/-! ## The fields of one thread -/

/-- The TCB of the sender, by its next statement. -/
def SenderOk (s : State) : Prop :=
  match s.sPc with
  | .user | .setPartner => s.sState.isPolling = false ∧ s.queued = false
  | .setPolling => s.sState.isPolling = false ∧ s.queued = false ∧ s.sPartner = true
  | .readState | .readPartner | .enqueue | .request => s.Polls ∧ s.queued = false
  | .blocked => (s.Polls ∨ s.sState = .lockedRunning) ∧ s.queued = true
  | .requested => (s.Polls ∨ s.sState = .lockedRunning) ∧ s.queued = false
  | .dequeue => s.sState = .lockedRunning ∧ s.queued = true
  | .readStatus | .tellPartner | .transfer | .done | .setRunning =>
    s.sState = .lockedRunning ∧ s.queued = false

/-- The TCB of the receiver, by its next statement. -/
def ReceiverOk (s : State) : Prop :=
  match s.rPc with
  | .user | .setPartner _ => s.rState = .running
  | .setWaiting spec => s.rState = .running ∧ s.rPartner = some spec
  | .findSender spec | .readState spec | .readPartner spec | .blockState spec
  | .blockPartner spec => s.rState = .waitingForever ∧ s.rPartner = some spec
  | .lock => s.rState = .waitingForever ∧ s.rPartner ≠ none
  | .request => s.rState = .lockedWaiting ∧ s.rPartner ≠ none
  | .waiting => s.rPartner ≠ none

structure Inv (sameSpace : Bool) (s : State) : Prop where
  fault : s.fault = false
  sender : s.SenderOk
  receiver : s.ReceiverOk
  joint : s.Joint sameSpace

theorem Inv.init (h : s.Init) : s.Inv sameSpace where
  fault := h.fault
  sender := by simp [SenderOk, h.sPc, h.sState, h.queued, ThreadState.isPolling]
  receiver := by simp [ReceiverOk, h.rPc, h.rState]
  joint := by simp [Joint, h.rPc, Quiet, Unseen, Calm, h.sPc, h.toSender, h.toReceiver]

/-! ## Steps of the sender -/

/-- What a statement of the sender does. -/
inductive SenderStep (sameSpace : Bool) (s : State) : State → Prop
  | setPartner (h : s.sPc = .setPartner) :
    SenderStep sameSpace s { s with sPartner := true, sPc := .setPolling }
  | setPolling (h : s.sPc = .setPolling) :
    SenderStep sameSpace s { s with sState := .polling, sPc := .readState }
  | seesWaiting (h : s.sPc = .readState) (hw : s.rState.isWaiting = true) :
    SenderStep sameSpace s { s with sPc := .readPartner }
  | seesBusy (h : s.sPc = .readState) (hw : s.rState.isWaiting = false) :
    SenderStep sameSpace s { s with sPc := .enqueue }
  | accepted (h : s.sPc = .readPartner) (hp : s.rPartner.any (·.accepts sameSpace) = true) :
    SenderStep sameSpace s { s with sPc := .request }
  | rejected (h : s.sPc = .readPartner) (hp : s.rPartner.any (·.accepts sameSpace) = false) :
    SenderStep sameSpace s { s with sPc := .enqueue }
  | enqueue (h : s.sPc = .enqueue) : SenderStep sameSpace s
      { s with queued := true, sPartner := true, sState := .polling, sPc := .blocked }
  | wakeBlocked (h : s.sPc = .blocked) (hr : s.sState.isRunnable = true) :
    SenderStep sameSpace s { s with sPc := .dequeue }
  | dequeue (h : s.sPc = .dequeue) :
    SenderStep sameSpace s { s with queued := false, sPc := .tellPartner }
  | request (h : s.sPc = .request) :
    SenderStep sameSpace s { s with toReceiver := s.toReceiver ++ [.send], sPc := .requested }
  | wakeRequested (h : s.sPc = .requested) (hr : s.sState.isRunnable = true) :
    SenderStep sameSpace s { s with sPc := .readStatus }
  | retry (h : s.sPc = .readStatus) (hs : s.status ≠ 0) :
    SenderStep sameSpace s { s with sPc := .setPartner }
  | granted (h : s.sPc = .readStatus) (hs : s.status = 0) :
    SenderStep sameSpace s { s with sPc := .tellPartner }
  | tellPartner (h : s.sPc = .tellPartner) :
    SenderStep sameSpace s { s with rPartner := some .sender, sPc := .transfer }
  | transfer (h : s.sPc = .transfer) : SenderStep sameSpace s { s with sPc := .done }
  | done (h : s.sPc = .done) :
    SenderStep sameSpace s { s with toReceiver := s.toReceiver ++ [.sendDone], sPc := .setRunning }
  | setRunning (h : s.sPc = .setRunning) :
    SenderStep sameSpace s { s with sState := .running, sPc := .user }

theorem SenderStep.of_eq (hs : s.senderStep sameSpace = some t) : SenderStep sameSpace s t := by
  rw [senderStep] at hs
  cases h : s.sPc <;> simp only [h, Option.some.injEq, Option.ite_none_right_eq_some] at hs
  case user => cases hs
  case readState =>
    subst hs
    split
    · exact .seesWaiting h ‹_›
    · exact .seesBusy h (eq_false_of_ne_true ‹_›)
  case readPartner =>
    subst hs
    split
    · exact .accepted h ‹_›
    · exact .rejected h (eq_false_of_ne_true ‹_›)
  case readStatus =>
    subst hs
    split
    · exact .retry h ‹_›
    · exact .granted h (not_not.mp ‹_›)
  case blocked => exact hs.2 ▸ .wakeBlocked h hs.1
  case requested => exact hs.2 ▸ .wakeRequested h hs.1
  case setPartner => exact hs ▸ .setPartner h
  case setPolling => exact hs ▸ .setPolling h
  case enqueue => exact hs ▸ .enqueue h
  case dequeue => exact hs ▸ .dequeue h
  case request => exact hs ▸ .request h
  case tellPartner => exact hs ▸ .tellPartner h
  case transfer => exact hs ▸ .transfer h
  case done => exact hs ▸ .done h
  case setRunning => exact hs ▸ .setRunning h

/-- A polling thread is not dispatched. -/
theorem not_polls_of_isRunnable (h : s.sState.isRunnable = true) : ¬s.Polls := by
  rintro ⟨hp, -⟩
  rw [hp] at h
  cases h

theorem SenderOk.senderStep (h : s.SenderOk) (hs : SenderStep sameSpace s t) : t.SenderOk := by
  cases hs with
  | wakeBlocked hpc hr | wakeRequested hpc hr =>
    have hnot := not_polls_of_isRunnable hr
    simp_all [SenderOk]
  | _ => simp_all [SenderOk, Polls, ThreadState.isPolling]

/-- A statement of the sender writes at most the partner of the receiver. -/
theorem SenderStep.frame (hs : SenderStep sameSpace s t) :
    t.rPc = s.rPc ∧ t.rState = s.rState ∧ t.fault = s.fault ∧ t.toSender = s.toSender ∧
      t.status = s.status := by
  cases hs <;> exact ⟨rfl, rfl, rfl, rfl, rfl⟩

theorem SenderStep.rPartner (hs : SenderStep sameSpace s t) (h : s.sPc ≠ .tellPartner) :
    t.rPartner = s.rPartner := by
  cases hs with
  | tellPartner hpc => exact absurd hpc h
  | _ => rfl

/-- While the receiver is not waiting, the sender does not see it wait. -/
theorem Unseen.senderStep (h : s.Unseen) (hw : s.rState.isWaiting = false)
    (hs : SenderStep sameSpace s t) :
    t.Unseen ∧ t.toReceiver = s.toReceiver ∧ t.rPartner = s.rPartner := by
  cases hs with
  | wakeBlocked hpc hr =>
    have hnot := not_polls_of_isRunnable hr
    simp_all [Unseen, Calm]
  | _ => simp_all [Unseen, Calm, Polls]

/-- A sender that requests is polling. -/
theorem SenderOk.polls (h : s.SenderOk)
    (hpc : s.sPc = .readState ∨ s.sPc = .readPartner ∨ s.sPc = .enqueue ∨ s.sPc = .request) :
    s.Polls := by
  rcases hpc with hpc | hpc | hpc | hpc <;> rw [SenderOk, hpc] at h <;> exact h.1

theorem Meeting.senderStep (h : s.Meeting) (hok : s.SenderOk) (hs : SenderStep sameSpace s t) :
    t.Meeting ∧ t.rPartner = s.rPartner := by
  cases hs with
  | wakeBlocked hpc hr | wakeRequested hpc hr =>
    have hnot := not_polls_of_isRunnable hr
    simp_all [Meeting, Sent, Looking, Calm]
  | request hpc =>
    have hpolls := hok.polls (.inr <| .inr <| .inr hpc)
    simp_all [Meeting, Sent, Looking, Calm, Quiet, Polls]
  | _ => simp_all [Meeting, Sent, Looking, Calm, Quiet, Polls]

theorem Committed.senderStep (h : s.Committed) (hok : s.SenderOk)
    (hs : SenderStep sameSpace s t) : t.Committed ∧ t.rPartner = s.rPartner := by
  cases hs with
  | wakeBlocked hpc hr | wakeRequested hpc hr =>
    have hnot := not_polls_of_isRunnable hr
    simp_all [Committed, Sent, Looking]
  | request hpc =>
    have hpolls := hok.polls (.inr <| .inr <| .inr hpc)
    simp_all [Committed, Sent, Looking, Quiet, Polls]
  | _ => simp_all [Committed, Sent, Looking, Quiet, Polls]

theorem Asked.senderStep (h : s.Asked) (hok : s.SenderOk) (hs : SenderStep sameSpace s t) :
    t.Asked := by
  cases hs with
  | wakeBlocked hpc hr | wakeRequested hpc hr =>
    have hnot := not_polls_of_isRunnable hr
    simp_all [Asked, Looking]
  | request hpc =>
    have hpolls := hok.polls (.inr <| .inr <| .inr hpc)
    simp_all [Asked, Looking, Polls]
  | _ => simp_all [Asked, Looking, Polls]

/-- A receiver that has not seen the sender is seen by it. -/
theorem Passed.senderStep (h : s.Passed sameSpace) (hok : s.SenderOk)
    (hw : s.rState.isWaiting = true) (hs : SenderStep sameSpace s t) :
    t.Passed sameSpace ∧ t.rPartner = s.rPartner := by
  cases hs with
  | wakeBlocked hpc hr | wakeRequested hpc hr =>
    have hnot := not_polls_of_isRunnable hr
    simp_all [Passed, Sent, Looking, Calm]
  | request hpc =>
    have hpolls := hok.polls (.inr <| .inr <| .inr hpc)
    simp_all [Passed, Sent, Looking, Calm, Quiet, Polls]
  | _ => simp_all [Passed, Sent, Looking, Calm, Quiet, Polls]

/-- A sender that is refused starts again. -/
theorem Refused.senderStep (h : s.Refused) (hs : SenderStep sameSpace s t) :
    (t.Refused ∨ t.Passed sameSpace) ∧ t.rPartner = s.rPartner := by
  cases hs with
  | wakeRequested hpc hr =>
    have hnot := not_polls_of_isRunnable hr
    simp_all [Refused]
  | retry hpc hs => simp_all [Refused, Passed, Calm, Quiet]
  | _ => simp_all [Refused]

theorem Answered.senderStep (h : s.Answered) (hs : SenderStep sameSpace s t) : t.Answered := by
  cases hs with
  | wakeRequested hpc hr => exact absurd h.2.2.2.2 (not_polls_of_isRunnable hr)
  | _ => simp_all [Answered]

theorem Granted.senderStep (h : s.Granted) (hs : SenderStep sameSpace s t) :
    t.Granted ∨ t.Transferred := by
  cases hs with
  | done hpc =>
    have hflight : s.toReceiver = [] ∨ s.toReceiver = [.send] := by
      simp_all [Granted]
    right
    rcases hflight with hflight | hflight <;> simp_all [Granted, Transferred, Unseen, Calm]
  | tellPartner hpc =>
    have hflight : s.toReceiver = [] ∨ s.toReceiver = [.send] := by
      rcases h.2 with h | h
      · exact .inl h.1
      · exact h.2.1
    exact .inl ⟨h.1, .inr ⟨rfl, hflight, .inr (.inr (.inl rfl))⟩⟩
  | _ => simp_all [Granted]

theorem Transferred.senderStep (h : s.Transferred) (hw : s.rState.isWaiting = false)
    (hs : SenderStep sameSpace s t) : t.Transferred := by
  obtain ⟨hto, hpartner, hfrom, hunseen⟩ := h
  obtain ⟨hunseen', hfrom', hpartner'⟩ := hunseen.senderStep hw hs
  exact ⟨hs.frame.2.2.2.1.trans hto, hpartner'.trans hpartner, hfrom' ▸ hfrom, hunseen'⟩

theorem ReceiverOk.senderStep (h : s.ReceiverOk) (hs : SenderStep sameSpace s t)
    (hp : t.rPartner = s.rPartner ∨ s.rPc = .waiting) : t.ReceiverOk := by
  obtain ⟨hpc, hst, -⟩ := hs.frame
  rw [ReceiverOk] at h ⊢
  rcases hp with hp | hp
  · rwa [hpc, hst, hp]
  · rw [hp] at h
    rw [hpc, hp]
    by_cases htell : s.sPc = .tellPartner
    · cases hs <;> simp_all
    · rwa [hs.rPartner htell]

theorem Inv.senderStep (h : s.Inv sameSpace) (hs : s.senderStep sameSpace = some t) :
    t.Inv sameSpace := by
  obtain ⟨hfault, hok, hrok, hj⟩ := h
  replace hs := SenderStep.of_eq hs
  obtain ⟨hpc, hst, hft, hto, -⟩ := hs.frame
  have hquiet (hq : s.Quiet) (hfrom : t.toReceiver = s.toReceiver) : t.Quiet :=
    ⟨hto.trans hq.1, hfrom.trans hq.2⟩
  suffices hjoint : t.Joint sameSpace ∧ (t.rPartner = s.rPartner ∨ s.rPc = .waiting) from
    ⟨hft.trans hfault, hok.senderStep hs, hrok.senderStep hs hjoint.2, hjoint.1⟩
  rw [ReceiverOk] at hrok
  rw [Joint] at hj ⊢
  cases hrpc : s.rPc <;> simp only [hrpc, hpc] at hj hrok ⊢
  case user | setPartner | setWaiting =>
    obtain ⟨hunseen, hfrom, hpartner⟩ := hj.2.senderStep (by simp [hrok, ThreadState.isWaiting]) hs
    exact ⟨⟨hquiet hj.1 hfrom, hunseen⟩, .inl hpartner⟩
  case findSender =>
    obtain ⟨hmeeting, hpartner⟩ := hj.senderStep hok hs
    exact ⟨hmeeting, .inl hpartner⟩
  case readState =>
    rcases hj with ⟨hp, hj⟩ | ⟨-, hb, hpolls⟩
    · obtain ⟨hmeeting, hpartner⟩ := hj.senderStep hok hs
      exact ⟨.inl ⟨hpartner.trans hp, hmeeting⟩, .inl hpartner⟩
    · cases hs with
      | wakeBlocked _ hr => exact absurd hpolls (not_polls_of_isRunnable hr)
      | _ => simp_all
  case readPartner | lock | request =>
    obtain ⟨hcommitted, hpartner⟩ := hj.senderStep hok hs
    exact ⟨hcommitted, .inl hpartner⟩
  case blockState | blockPartner =>
    obtain ⟨hpassed, hpartner⟩ := hj.senderStep hok (by simp [hrok.1, ThreadState.isWaiting]) hs
    exact ⟨hpassed, .inl hpartner⟩
  case waiting =>
    refine ⟨?_, .inr trivial⟩
    rw [hst]
    rcases hj with ⟨hr, hj, hunseen⟩ | ⟨hr, hj | hj⟩ | ⟨hr, hj | hj | hj | hj⟩
    · obtain ⟨hunseen, hfrom, -⟩ := hunseen.senderStep (by simp [hr, ThreadState.isWaiting]) hs
      exact .inl ⟨hr, hquiet hj hfrom, hunseen⟩
    · have hpassed := (hj.senderStep hok (by simp [hr, ThreadState.isWaiting]) hs).1
      exact .inr (.inl ⟨hr, .inl hpassed⟩)
    · exact .inr (.inl ⟨hr, (hj.senderStep hs).1.symm⟩)
    · exact .inr (.inr ⟨hr, .inl (hj.senderStep hok hs)⟩)
    · exact .inr (.inr ⟨hr, .inr (.inl (hj.senderStep hs))⟩)
    · exact .inr (.inr ⟨hr, .inr (.inr (hj.senderStep hs))⟩)
    · have htransferred := hj.senderStep (by simp [hr, ThreadState.isWaiting]) hs
      exact .inr (.inr ⟨hr, .inr (.inr (.inr htransferred))⟩)

/-! ## Steps of the receiver -/

theorem Unseen.meeting (h : s.Unseen) (hq : s.Quiet) : s.Meeting := by
  refine .inl ⟨hq, ?_⟩
  rcases h with h | h | h | h
  · exact .inl h
  · exact .inr (.inl h)
  · exact .inr (.inr (.inr (.inr (.inl h))))
  · exact .inr (.inr (.inr (.inr (.inr h))))

/-- The head of the send queue is asleep. -/
theorem Meeting.queued (h : s.Meeting) (hok : s.SenderOk) (hq : s.queued = true) :
    s.Quiet ∧ s.sPc = .blocked ∧ s.Polls := by
  rcases h with ⟨hquiet, (hs | hs | hs | hs) | hs | hs | hs | hs | hs⟩ | ⟨-, -, hs, -⟩
  case inl.inr.inr.inr.inr.inr => exact ⟨hquiet, hs⟩
  all_goals
    rw [SenderOk, hs] at hok
    simp_all

/-- A receiver that looks into its queue in time does not miss the sender. -/
theorem Meeting.passed (h : s.Meeting)
    (hmiss : s.rPartner.any (·.accepts sameSpace) = true → s.sPc ≠ .enqueue ∧ s.sPc ≠ .blocked) :
    s.Passed sameSpace :=
  h.imp (fun h => ⟨h.1, h.2, hmiss⟩) id

/-- A sender between two sends is not polling. -/
theorem SenderOk.not_calm (h : s.SenderOk) (hp : s.sState.isPolling = true) : ¬s.Calm := by
  rintro (hpc | hpc | hpc | hpc) <;> rw [SenderOk, hpc] at h <;>
    simp_all [ThreadState.isPolling]

theorem Meeting.committed (h : s.Meeting) (hok : s.SenderOk) (hp : s.sState.isPolling = true)
    (hpartner : s.rPartner = some .sender) : s.Committed := by
  rcases h with ⟨hq, hs | hs⟩ | hs
  · exact absurd hs (hok.not_calm hp)
  · exact .inl ⟨hq, .inr ⟨hpartner, hs⟩⟩
  · exact .inr ⟨hpartner, hs⟩

theorem Committed.polls (h : s.Committed) (hok : s.SenderOk) : s.Polls := by
  rcases h with ⟨-, ⟨-, h⟩ | ⟨-, h⟩⟩ | ⟨-, -, -, -, h⟩
  · exact h
  · rcases h with h | h | h | h | h
    · exact hok.polls (.inl h)
    · exact hok.polls (.inr (.inl h))
    · exact hok.polls (.inr (.inr (.inr h)))
    · exact hok.polls (.inr (.inr (.inl h)))
    · exact h.2
  · exact h

theorem Committed.asked (h : s.Committed) :
    { s with toSender := s.toSender ++ [SenderMsg.receive], rPc := .waiting }.Asked := by
  rcases h with ⟨⟨hto, hfrom⟩, h⟩ | ⟨hpartner, hto, hfrom, h⟩
  · exact ⟨by simp [hto], .inl ⟨hfrom, h⟩⟩
  · exact ⟨by simp [hto], .inr ⟨hpartner, .inr hfrom, h⟩⟩

/-- A receiver that reads an empty send queue in time is not in it. -/
theorem Meeting.not_missed (h : ¬s.Misses sameSpace) (hrpc : s.rPc = .findSender spec)
    (hpartner : s.rPartner = some spec) (hok : s.SenderOk) (hq : s.queued = false)
    (hspec : spec ≠ .sender) (ha : s.rPartner.any (·.accepts sameSpace) = true) :
    s.sPc ≠ .enqueue ∧ s.sPc ≠ .blocked := by
  constructor
  · intro hpc
    refine h ⟨?_, hpc⟩
    cases spec <;> simp_all [FromSpec.accepts]
  · intro hpc
    rw [SenderOk, hpc] at hok
    simp_all

theorem Inv.receiverStep (h : s.Inv sameSpace) (hmiss : ¬s.Misses sameSpace)
    (hs : s.receiverStep = some t) : t.Inv sameSpace := by
  obtain ⟨hfault, hok, hrok, hj⟩ := h
  rw [ReceiverOk] at hrok
  rw [Joint] at hj
  rw [State.receiverStep] at hs
  cases hrpc : s.rPc <;>
    simp only [hrpc, Option.some.injEq, Option.ite_none_right_eq_some] at hj hrok hs
  case user => cases hs
  case setPartner => exact hs ▸ ⟨hfault, hok, ⟨hrok, rfl⟩, hj⟩
  case setWaiting => exact hs ▸ ⟨hfault, hok, ⟨rfl, hrok.2⟩, hj.2.meeting hj.1⟩
  case findSender spec =>
    subst hs
    split
    next hfound =>
      refine ⟨hfault, hok, hrok, ?_⟩
      by_cases hspec : spec = .sender
      · exact .inl ⟨hspec ▸ hrok.2, hj⟩
      · exact .inr (hj.queued hok (hfound.resolve_left hspec))
    next hfound =>
      obtain ⟨hspec, hqueued⟩ := not_or.mp hfound
      refine ⟨hfault, hok, hrok, hj.passed fun ha => ?_⟩
      exact Meeting.not_missed hmiss hrpc hrok.2 hok (eq_false_of_ne_true hqueued) hspec ha
  case readState spec =>
    subst hs
    split
    next hp =>
      refine ⟨hfault, hok, hrok, ?_⟩
      rcases hj with ⟨hpartner, hj⟩ | ⟨hq, hj⟩
      · exact hj.committed hok hp hpartner
      · exact .inl ⟨hq, .inl hj⟩
    next hp =>
      refine ⟨hfault, hok, hrok, ?_⟩
      rcases hj with ⟨hpartner, hj⟩ | ⟨-, -, hpolls, -⟩
      · refine hj.passed fun _ => ⟨fun hpc => hp ?_, fun hpc => hp ?_⟩
        · simp [(hok.polls (.inr (.inr (.inl hpc)))).1, ThreadState.isPolling]
        · have hqueued : s.queued = true := by
            rw [SenderOk, hpc] at hok
            exact hok.2
          simp [(hj.queued hok hqueued).2.2.1, ThreadState.isPolling]
      · simp [hpolls, ThreadState.isPolling] at hp
  case readPartner =>
    rw [if_pos (Committed.polls hj hok).2] at hs
    exact hs ▸ ⟨hfault, hok, ⟨hrok.1, by simp [hrok.2]⟩, hj⟩
  case blockState => exact hs ▸ ⟨hfault, hok, ⟨rfl, hrok.2⟩, hj⟩
  case blockPartner spec =>
    have hpartner : s = { s with rPartner := some spec } := by rw [← hrok.2]
    refine hs ▸ ⟨hfault, hok, nofun, .inr (.inl ⟨hrok.1, .inl ?_⟩)⟩
    rw [hpartner] at hj
    exact hj
  case lock => exact hs ▸ ⟨hfault, hok, ⟨rfl, hrok.2⟩, hj⟩
  case request => exact hs ▸ ⟨hfault, hok, hrok.2, .inr (.inr ⟨hrok.1, .inl hj.asked⟩)⟩
  case waiting =>
    obtain ⟨hr, hs⟩ := hs
    rcases hj with ⟨-, hj⟩ | ⟨hw, -⟩ | ⟨hw, -⟩
    · exact hs ▸ ⟨hfault, hok, rfl, hj⟩
    · rw [hw] at hr
      cases hr
    · rw [hw] at hr
      cases hr

/-! ## Handlers -/

theorem SenderOk.lockedRunning (h : s.SenderOk) (hpc : s.sPc = .blocked ∨ s.sPc = .requested)
    (mails : List SenderMsg) (status : Word) :
    { s with toSender := mails, status, sState := .lockedRunning }.SenderOk := by
  rcases hpc with hpc | hpc <;> simp_all [SenderOk]

/-- Only a receiver that has nothing left to do has told the sender something. -/
theorem Joint.told (h : s.Joint sameSpace) (hto : s.toSender ≠ []) :
    s.rPc = .waiting ∧
      (s.rState = .waitingForever ∧ s.Refused ∨ s.rState = .lockedWaiting ∧ (s.Asked ∨ s.Answered)) := by
  have hquiet : ¬s.Quiet := fun hq => hto hq.1
  have hsent : ¬s.Sent := fun hs => hto hs.1
  rw [Joint] at h
  cases hpc : s.rPc <;> simp only [hpc] at h
  case waiting =>
    simp_all [Passed, Granted, Transferred]
  all_goals simp_all [Meeting, Committed, Passed]

/-- A receiver that asks for the message, and the sender that waits to be asked. -/
theorem Asked.granted (h : s.Asked) (hopen : s.senderOpen = true) (hstale : ¬s.Stale) :
    s.Polls ∧ (s.sPc = .blocked ∨ s.sPc = .requested) ∧
      { s with toSender := [], sState := .lockedRunning }.Granted := by
  obtain ⟨hto, ⟨hfrom, ⟨hpc, hp⟩ | ⟨hpartner, hl⟩⟩ | ⟨hpartner, hfrom, hpc, hp⟩⟩ := h
  · exact ⟨hp, .inl hpc, rfl, .inl ⟨hfrom, .inl ⟨hpc, rfl⟩⟩⟩
  · simp only [senderOpen, Bool.or_eq_true, beq_iff_eq] at hopen
    rcases hopen with (hpc | hpc) | hpc <;> simp_all [Looking, Granted]
  · have hstatus : s.status = 0 := by
      by_contra hne
      exact hstale ⟨by simp [hto], hpc, hne⟩
    exact ⟨hp, .inr hpc, rfl, .inr ⟨hpartner, hfrom, .inl ⟨hstatus, .inl ⟨hpc, rfl⟩⟩⟩⟩

theorem handleSender_cases (hs : s.handleSender = some t) : s.senderOpen = true ∧
    ((∃ rest, s.toSender = .receive :: rest ∧ t = { s with toSender := rest }.doXcpuReceive) ∨
      ∃ status rest, s.toSender = .sendReply status :: rest ∧
        t = { s with toSender := rest }.doXcpuSendReply status) := by
  rw [State.handleSender] at hs
  rcases hto : s.toSender with _ | ⟨m, rest⟩ <;> simp only [hto] at hs
  · cases hs
  · obtain ⟨hopen, hs⟩ := Option.ite_none_right_eq_some.mp hs
    refine ⟨hopen, ?_⟩
    cases m with
    | receive => exact .inl ⟨rest, rfl, (Option.some.inj hs).symm⟩
    | sendReply status => exact .inr ⟨status, rest, rfl, (Option.some.inj hs).symm⟩

theorem handleReceiver_cases (hs : s.handleReceiver = some t) : s.receiverOpen = true ∧ ∃ rest,
    (s.toReceiver = .send :: rest ∧ t = { s with toReceiver := rest }.doXcpuSend) ∨
      s.toReceiver = .sendDone :: rest ∧ t = { s with toReceiver := rest }.doXcpuSendDone := by
  rw [State.handleReceiver] at hs
  rcases hto : s.toReceiver with _ | ⟨m, rest⟩ <;> simp only [hto] at hs
  · cases hs
  · obtain ⟨hopen, hs⟩ := Option.ite_none_right_eq_some.mp hs
    refine ⟨hopen, rest, ?_⟩
    cases m with
    | send => exact .inl ⟨rfl, (Option.some.inj hs).symm⟩
    | sendDone => exact .inr ⟨rfl, (Option.some.inj hs).symm⟩

theorem Inv.handleSender (h : s.Inv sameSpace) (hstale : ¬s.Stale)
    (hs : s.handleSender = some t) : t.Inv sameSpace := by
  obtain ⟨hfault, hok, hrok, hj⟩ := h
  obtain ⟨hopen, hs⟩ := handleSender_cases hs
  have hto : s.toSender ≠ [] := by
    rcases hs with ⟨rest, hto, -⟩ | ⟨status, rest, hto, -⟩ <;> simp [hto]
  rw [ReceiverOk] at hrok
  obtain ⟨hrpc, ⟨hr, hpartner, hfrom, hj⟩ | ⟨hr, hj | ⟨hto', hfrom, hpartner, hpc, -⟩⟩⟩ :=
    hj.told hto
  · -- the receiver has refused
    obtain ⟨hto', hpc, -⟩ := hj.resolve_right (fun h => hto h.1)
    obtain ⟨rest, hm, -⟩ | ⟨status, rest, hm, rfl⟩ := hs <;> rw [hto'] at hm <;> cases hm
    refine ⟨hfault, hok.lockedRunning (.inr hpc) _ _, by simp_all [ReceiverOk, doXcpuSendReply], ?_⟩
    have hrefused : ({ s with toSender := [] }.doXcpuSendReply 1).Refused :=
      ⟨hpartner, hfrom, .inr ⟨rfl, by simp [doXcpuSendReply], .inl ⟨hpc, rfl⟩⟩⟩
    simp_all [Joint, doXcpuSendReply]
  · -- the receiver has asked
    obtain ⟨hpolls, hpc, hgranted⟩ := hj.granted hopen hstale
    obtain ⟨rest, hm, rfl⟩ | ⟨status, rest, hm, -⟩ := hs <;> rw [hj.1] at hm <;> cases hm
    have hsend : { s with toSender := [] }.doXcpuReceive =
        { s with toSender := [], sState := .lockedRunning } := by
      rw [doXcpuReceive, if_pos (.inl ⟨by simp [hpolls.1, ThreadState.isPolling], hpolls.2⟩)]
    rw [hsend]
    refine ⟨hfault, hok.lockedRunning hpc _ _, by simp_all [ReceiverOk], ?_⟩
    simp_all [Joint]
  · -- the receiver has answered
    obtain ⟨rest, hm, -⟩ | ⟨status, rest, hm, rfl⟩ := hs <;> rw [hto'] at hm <;> cases hm
    refine ⟨hfault, hok.lockedRunning (.inr hpc) _ _, by simp_all [ReceiverOk, doXcpuSendReply], ?_⟩
    have hgranted : ({ s with toSender := [] }.doXcpuSendReply 0).Granted :=
      ⟨rfl, .inr ⟨hpartner, .inl hfrom, .inl ⟨rfl, .inl ⟨hpc, rfl⟩⟩⟩⟩
    simp_all [Joint, doXcpuSendReply]

/-- A receiver that is locked by the sender needs no answer. -/
theorem doXcpuSend_of_locked (h : s.rState = .lockedWaiting) (hp : s.rPartner = some .sender) :
    s.doXcpuSend = s := by
  rw [doXcpuSend, if_neg (by simp [h, ThreadState.isWaiting]), if_pos ⟨h, hp⟩]

/-- The receiver learns of the sender. -/
theorem Sent.handled (h : s.Sent) (hr : s.rState = .waitingForever) (hp : s.rPartner ≠ none) :
    { s with toReceiver := [] }.doXcpuSend =
        { s with
          toReceiver := [], rState := .lockedWaiting, rPartner := some .sender
          toSender := [.sendReply 0] } ∨
      s.rPartner = some .anylocalthread ∧ { s with toReceiver := [] }.doXcpuSend =
        { s with toReceiver := [], toSender := [.sendReply 1] } := by
  rcases hpartner : s.rPartner with _ | spec
  · exact absurd hpartner hp
  · cases spec <;> simp [doXcpuSend, hr, h.1, ThreadState.isWaiting]

/-- Only a receiver that waits is told something, and handles it. -/
theorem Joint.heard (h : s.Joint sameSpace) (hopen : s.receiverOpen = true)
    (hfrom : s.toReceiver ≠ []) : s.rPc = .waiting ∧ (s.rState = .waitingForever ∧ s.Sent ∨
      s.rState = .lockedWaiting ∧ (s.Asked ∨ s.Granted ∨ s.Transferred)) := by
  have hquiet : ¬s.Quiet := fun hq => hfrom hq.2
  simp only [receiverOpen, Bool.or_eq_true, beq_iff_eq] at hopen
  rw [Joint] at h
  rcases hopen with hpc | hpc <;> rw [hpc] at h
  · exact absurd h.1 hquiet
  · simp_all [Passed, Refused, Answered]

/-- A message that is no news to a locked receiver. -/
theorem Asked.heard {rest : List ReceiverMsg} {m : ReceiverMsg} (h : s.Asked)
    (hm : s.toReceiver = m :: rest) : m = .send ∧ rest = [] ∧ s.rPartner = some .sender ∧
      { s with toReceiver := [] }.Asked := by
  obtain ⟨hto, ⟨hfrom, -⟩ | ⟨hpartner, hfrom, h⟩⟩ := h
  · rw [hm] at hfrom
    cases hfrom
  · rcases hfrom with hfrom | hfrom <;> rw [hm] at hfrom <;> cases hfrom
    exact ⟨rfl, rfl, hpartner, hto, .inr ⟨hpartner, .inl rfl, h⟩⟩

theorem Granted.heard {rest : List ReceiverMsg} {m : ReceiverMsg} (h : s.Granted)
    (hm : s.toReceiver = m :: rest) : m = .send ∧ rest = [] ∧ s.rPartner = some .sender ∧
      { s with toReceiver := [] }.Granted := by
  obtain ⟨hto, ⟨hfrom, -⟩ | ⟨hpartner, hfrom, h⟩⟩ := h
  · rw [hm] at hfrom
    cases hfrom
  · rcases hfrom with hfrom | hfrom <;> rw [hm] at hfrom <;> cases hfrom
    exact ⟨rfl, rfl, hpartner, hto, .inr ⟨hpartner, .inl rfl, h⟩⟩

theorem SenderOk.of_receiver (h : s.SenderOk) {u : State} (hpc : u.sPc = s.sPc)
    (hst : u.sState = s.sState) (hp : u.sPartner = s.sPartner) (hq : u.queued = s.queued) :
    u.SenderOk := by
  rw [SenderOk, hpc]
  rw [SenderOk] at h
  simp only [Polls, hst, hp, hq] at h ⊢
  exact h

theorem Inv.handleReceiver (h : s.Inv sameSpace) (hs : s.handleReceiver = some t) :
    t.Inv sameSpace := by
  obtain ⟨hfault, hok, hrok, hj⟩ := h
  obtain ⟨hopen, rest, hs⟩ := handleReceiver_cases hs
  have hfrom : s.toReceiver ≠ [] := by
    rcases hs with ⟨hm, -⟩ | ⟨hm, -⟩ <;> simp [hm]
  obtain ⟨hrpc, hj⟩ := hj.heard hopen hfrom
  rw [ReceiverOk, hrpc] at hrok
  -- a receiver that is locked by the sender has nothing to do for `do_xcpu_send`
  have hlocked (hr : s.rState = .lockedWaiting) (hpartner : s.rPartner = some .sender) :
      { s with toReceiver := [] }.doXcpuSend = { s with toReceiver := [] } :=
    doXcpuSend_of_locked hr hpartner
  rcases hj with ⟨hr, hj⟩ | ⟨hr, hj | hj | ⟨hto, hpartner, hj, hunseen⟩⟩
  · rcases hs with ⟨hm, rfl⟩ | ⟨hm, rfl⟩ <;> rw [hj.2.1] at hm <;> cases hm
    rcases hj.handled hr hrok with hsend | ⟨hpartner, hsend⟩ <;> rw [hsend]
    · have hanswered : Answered
          { s with
            toReceiver := [], rState := .lockedWaiting, rPartner := some .sender
            toSender := [.sendReply 0] } := ⟨rfl, rfl, rfl, hj.2.2⟩
      refine ⟨hfault, hok, by simp [ReceiverOk, hrpc], ?_⟩
      simp_all [Joint]
    · have hrefused : { s with toReceiver := [], toSender := [SenderMsg.sendReply 1] }.Refused :=
        ⟨hpartner, rfl, .inl ⟨rfl, hj.2.2⟩⟩
      refine ⟨hfault, hok, by simp_all [ReceiverOk], ?_⟩
      simp_all [Joint]
  · obtain ⟨hm, rfl⟩ := hs.resolve_right fun hs => nomatch (hj.heard hs.1).1
    obtain ⟨-, rfl, hpartner, hasked⟩ := hj.heard hm
    rw [hlocked hr hpartner]
    refine ⟨hfault, hok, by simp_all [ReceiverOk], ?_⟩
    simp_all [Joint]
  · obtain ⟨hm, rfl⟩ := hs.resolve_right fun hs => nomatch (hj.heard hs.1).1
    obtain ⟨-, rfl, hpartner, hgranted⟩ := hj.heard hm
    rw [hlocked hr hpartner]
    refine ⟨hfault, hok, by simp_all [ReceiverOk], ?_⟩
    simp_all [Joint]
  · rcases hj with hj | hj <;> rcases hs with ⟨hm, rfl⟩ | ⟨hm, rfl⟩ <;> rw [hj] at hm <;> cases hm
    · have hdone : { s with toReceiver := [] }.doXcpuSendDone =
          { s with toReceiver := [], rState := .running } := by
        rw [doXcpuSendDone, if_pos ⟨hr, hpartner⟩]
      rw [hdone]
      refine ⟨hfault, hok, by simp_all [ReceiverOk], ?_⟩
      have hquiet : Quiet { s with toReceiver := [], rState := .running } := ⟨hto, rfl⟩
      have hunseen' : Unseen { s with toReceiver := [], rState := .running } := hunseen
      simp_all [Joint]
    · have hsend : { s with toReceiver := [ReceiverMsg.sendDone] }.doXcpuSend =
          { s with toReceiver := [.sendDone] } := doXcpuSend_of_locked hr hpartner
      rw [hsend]
      refine ⟨hfault, hok, by simp_all [ReceiverOk], ?_⟩
      have htransferred : { s with toReceiver := [ReceiverMsg.sendDone] }.Transferred :=
        ⟨hto, hpartner, .inl rfl, hunseen⟩
      simp_all [Joint]

/-! ## Runs -/

/-- A sender at user level is in no phase that mentions its place. -/
theorem Joint.send (h : s.Joint sameSpace) (hpc : s.sPc = .user) :
    { s with sPc := .setPartner }.Joint sameSpace := by
  rw [Joint] at h ⊢
  cases hrpc : s.rPc <;> simp only [hrpc] at h ⊢
  case user | setPartner | setWaiting => exact ⟨h.1, .inl (.inr (.inl rfl))⟩
  case findSender | readState => simp_all [Meeting, Quiet, Sent, Calm]
  case readPartner | lock | request => simp_all [Committed, Quiet, Sent, Looking]
  case blockState | blockPartner => simp_all [Passed, Quiet, Sent, Calm]
  case waiting =>
    rcases h with ⟨hr, hq, -⟩ | ⟨hr, hj | hj⟩ | ⟨hr, hj | hj | hj | hj⟩
    · exact .inl ⟨hr, hq, .inl (.inr (.inl rfl))⟩
    · refine .inr (.inl ⟨hr, .inl ?_⟩)
      simp_all [Passed, Quiet, Sent, Calm]
    · simp_all [Refused]
    · simp_all [Asked, Looking]
    · simp_all [Answered]
    · simp_all [Granted]
    · obtain ⟨hto, hpartner, hfrom, -⟩ := hj
      exact .inr (.inr ⟨hr, .inr (.inr (.inr ⟨hto, hpartner, hfrom, .inl (.inr (.inl rfl))⟩))⟩)

theorem Inv.next {e : Event} (h : s.Inv sameSpace) (hok : s.Ordered sameSpace e)
    (hs : s.next sameSpace e = some t) : t.Inv sameSpace := by
  rw [State.next.eq_def, if_neg (by simp [h.fault])] at hs
  cases e with
  | senderStep => exact h.senderStep hs
  | receiverStep => exact h.receiverStep hok hs
  | handleSender => exact h.handleSender hok hs
  | handleReceiver => exact h.handleReceiver hs
  | send =>
    obtain ⟨hpc, hs⟩ := Option.ite_none_right_eq_some.mp hs
    obtain ⟨hfault, hsender, hreceiver, hj⟩ := h
    cases hs
    rw [SenderOk, hpc] at hsender
    exact ⟨hfault, hsender, hreceiver, hj.send hpc⟩
  | receive spec =>
    obtain ⟨hpc, hs⟩ := Option.ite_none_right_eq_some.mp hs
    obtain ⟨hfault, hsender, hreceiver, hj⟩ := h
    cases hs
    rw [ReceiverOk, hpc] at hreceiver
    rw [Joint, hpc] at hj
    exact ⟨hfault, hsender, hreceiver, hj⟩

/-- Only a sender that may transfer does. -/
theorem Joint.transfer (h : s.Joint sameSpace) (hpc : s.sPc = .transfer) :
    s.rState = .lockedWaiting ∧ s.rPartner = some .sender := by
  rw [Joint] at h
  cases hrpc : s.rPc <;> simp only [hrpc] at h
  case waiting =>
    simp_all [Unseen, Passed, Sent, Refused, Asked, Answered, Granted, Transferred, Calm, Looking]
  all_goals simp_all [Unseen, Meeting, Committed, Passed, Sent, Calm, Looking]

theorem Joint.not_deadlocked (h : s.Joint sameSpace) : ¬s.Deadlocked sameSpace := by
  rintro ⟨⟨hpc, hp⟩, ⟨hrpc, hr⟩, hto, hfrom⟩
  have hpolling : s.sState = .polling := by simpa [ThreadState.isPolling] using hp
  rw [Joint, hrpc] at h
  rcases h with ⟨hst, -⟩ | ⟨hst, hj | hj⟩ | ⟨hst, hj | hj | hj | hj⟩
  · simp [hst, ThreadState.isWaiting] at hr
  · have hr : s.rPartner.any (·.accepts sameSpace) = true := by
      simpa [hst, ThreadState.isWaiting] using hr
    rcases hpc with hpc | hpc <;> simp_all [Passed, Sent, Calm, Looking]
  · rcases hpc with hpc | hpc <;> simp_all [Refused]
  · cases hto.symm.trans hj.1
  · cases hto.symm.trans hj.1
  · rcases hpc with hpc | hpc <;> simp_all [Granted]
  · simp_all [Transferred]

theorem Inv.safe (h : s.Inv sameSpace) : s.Safe sameSpace where
  fault := h.fault
  transfer := h.joint.transfer
  live := h.joint.not_deadlocked

/-- The states of the runs whose steps all meet `ok`. -/
abbrev Reached (sameSpace : Bool) (ok : State → Event → Prop) : State → Prop :=
  Run.Reach Init (fun s e t => s.next sameSpace e = some t) ok

/-- Runs that avoid the two races are safe. -/
theorem reached_safe (h : Reached sameSpace (Ordered sameSpace) s) : s.Safe sameSpace :=
  Inv.safe <| Run.Reach.invariant (I := Inv sameSpace) (fun _ => .init) (fun _ _ _ => Inv.next) h

/-- Both threads are at user level. -/
def idle (status : Word) : State where
  sPc := .user
  sState := .running
  sPartner := false
  status
  queued := false
  rPc := .user
  rState := .running
  rPartner := none
  toSender := []
  toReceiver := []
  fault := false

theorem idle_init (status : Word) : (idle status).Init := ⟨rfl, rfl, rfl, rfl, rfl, rfl, rfl, rfl⟩

/-- A closed receive that finds the sender in its queue. -/
def queuedRun : List Event :=
  [.send, .senderStep, .senderStep, .senderStep, .senderStep, .receive .anythread] ++
    List.replicate 7 .receiverStep ++ [.handleSender, .senderStep, .senderStep, .senderStep]

/-- The sender of a run that avoids the two races transfers its message. -/
theorem exists_reached_safe : ∃ s : State, s.sPc = .transfer ∧ s.Safe true := by
  have hexec : (Run.exec (State.next true) (Ordered true) queuedRun (idle 0)).any
      (fun s => decide (s.sPc = .transfer)) = true := by decide
  obtain ⟨s, hs, hP⟩ := Run.Reach.exists_of_exec (.init (idle_init 0)) hexec
  exact ⟨s, of_decide_eq_true hP, reached_safe hs⟩

/-- The receiver looks into its queue between the check of the sender and `enqueue_send`. -/
def missingRun : List Event :=
  [.send, .senderStep, .senderStep, .senderStep, .receive .anythread] ++
    List.replicate 3 .receiverStep ++ [.senderStep, .receiverStep, .receiverStep]

/-- The sender is woken by `do_xcpu_receive` while its status is that of an earlier answer. -/
def staleRun : List Event :=
  [.receive .sender, .receiverStep, .receiverStep, .send] ++ List.replicate 5 .senderStep ++
    List.replicate 5 .receiverStep ++ [.handleSender] ++ List.replicate 6 .senderStep ++
    [.handleReceiver]

/-- Each of the two races alone leads to a deadlock. -/
theorem exists_deadlocked :
    (∃ s : State, Reached false (fun s e => e = .handleSender → ¬s.Stale) s ∧
      s.Deadlocked false) ∧
    ∃ s : State, Reached false (fun s e => e = .receiverStep → ¬s.Misses false) s ∧
      s.Deadlocked false := by
  constructor
  · have hexec : (Run.exec (State.next false) (fun s e => e = .handleSender → ¬s.Stale)
        missingRun (idle 0)).any (fun s => decide (s.Deadlocked false)) = true := by decide
    obtain ⟨s, hs, hP⟩ := Run.Reach.exists_of_exec (.init (idle_init 0)) hexec
    exact ⟨s, hs, of_decide_eq_true hP⟩
  · have hexec : (Run.exec (State.next false) (fun s e => e = .receiverStep → ¬s.Misses false)
        staleRun (idle 1)).any (fun s => decide (s.Deadlocked false)) = true := by decide
    obtain ⟨s, hs, hP⟩ := Run.Reach.exists_of_exec (.init (idle_init 1)) hexec
    exact ⟨s, hs, of_decide_eq_true hP⟩

end State

end L4Thread.Handshake
