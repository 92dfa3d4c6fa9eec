import L4Thread.Theory.Queues

/-!
# The macros of the queues

`ENQUEUE_LIST_TAIL`, `ENQUEUE_LIST_HEAD` and `DEQUEUE_LIST` (`include/api/v4/queueing.h`) on a link
field of the TCBs, and the send queues that `enqueue_send` and `dequeue_send` keep with them.
-/

namespace L4Thread

open TrapM Kernel Ring

variable {s t : KState} {head head' : Option TcbPtr} {list list' : TcbPtr → Link TcbPtr}
  {tcb p q owner : TcbPtr} {L : List TcbPtr}

/-- The TCBs of `L`, in this order from the head, are linked into one circle, and the two pointers
are mutually inverse. -/
structure IsQueue (list : TcbPtr → Link TcbPtr) (head : Option TcbPtr) (L : List TcbPtr) :
    Prop where
  ring : IsRing list head L
  next (p : TcbPtr) (hp : p ∈ L) : ∃ q ∈ L, (list p).next = some q ∧ (list q).prev = some p
  prev (p : TcbPtr) (hp : p ∈ L) : ∃ q ∈ L, (list p).prev = some q ∧ (list q).next = some p

theorem IsQueue.of_ring (h : IsRing list head L) : IsQueue list head L where
  ring := h
  next _ hp := h.cyc.linked_next hp
  prev _ hp := by
    obtain ⟨q, hq, hnext, hprev⟩ := h.cyc.linked_prev hp
    exact ⟨q, hq, hprev, hnext⟩

/-! ## The three macros -/

theorem IsQueue.enqueueTail (h : IsQueue list head L) (htcb : tcb ∉ L) :
    ∃ head' list', enqueueTail head list tcb = some (head', list') ∧
      IsQueue list' head' (L ++ [tcb]) ∧ ∀ p ∉ tcb :: L, list' p = list p := by
  obtain ⟨head', list', henq, hring, hframe⟩ := h.ring.enqueueTail htcb
  exact ⟨head', list', henq, .of_ring hring, hframe⟩

theorem IsQueue.enqueueHead (h : IsQueue list head L) (htcb : tcb ∉ L) :
    ∃ head' list', enqueueHead head list tcb = some (head', list') ∧
      IsQueue list' head' (tcb :: L) ∧ ∀ p ∉ tcb :: L, list' p = list p := by
  obtain ⟨head', list', henq, hring, hframe⟩ := h.ring.enqueueHead htcb
  exact ⟨head', list', henq, .of_ring hring, hframe⟩

/-- A TCB that is not the head is not alone. -/
theorem IsQueue.next_ne_self (h : IsQueue list head L) (htcb : tcb ∈ L) (hhead : head ≠ some tcb) :
    (list tcb).next ≠ some tcb := by
  intro hnext
  obtain rfl := (h.ring.cyc.next_eq_self_iff htcb).mp hnext
  exact hhead h.ring.head_eq

theorem IsQueue.dequeue (h : IsQueue list head L) (htcb : tcb ∈ L) :
    ∃ head' list', dequeue head list tcb = some (head', list') ∧
      IsQueue list' head' (L.erase tcb) ∧ (head ≠ some tcb → head' = head) ∧
      ∀ p ∉ L, list' p = list p := by
  obtain ⟨head', list', hdeq, hring, hframe⟩ := h.ring.dequeue htcb
  exact ⟨head', list', hdeq, .of_ring hring,
    fun hhead => head_dequeue hhead (h.next_ne_self htcb hhead) hdeq, hframe⟩

/-! ## Send queues -/

/-- The send queue of a thread. -/
def KState.SendQueue (s : KState) (owner : TcbPtr) (L : List TcbPtr) : Prop :=
  IsQueue s.sendList (s.tcb owner).sendHead L

/-- The head of a queue after the bit of a thread is written. -/
theorem sendHead_setSend {c : Tcb} {b : Bool} {f : TcbPtr → Tcb} (hc : f p = c) :
    (Function.update f p { c with queueState := { c.queueState with send := b } } owner).sendHead =
      (f owner).sendHead := by
  rcases eq_or_ne owner p with rfl | hne
  · rw [Function.update_self, hc]
  · rw [Function.update_of_ne hne]

theorem KState.SendQueue.enqueueSend (h : s.SendQueue owner L) (hp : p ∉ L) :
    ∃ t, enqueueSend p owner s = .ok ((), t) ∧ t.SendQueue owner (L ++ [p]) ∧
      (t.tcb p).queueState.send = true ∧ ∀ q ∉ p :: L, t.sendList q = s.sendList q := by
  obtain ⟨head', list', henq, hqueue, hframe⟩ := IsQueue.enqueueTail h hp
  obtain ⟨_, t, ht, hQ⟩ := wp_iff_exists.mp (show wp (fun _ => False) (Kernel.enqueueSend p owner)
    (fun _ t => t.sendList = list' ∧ (t.tcb owner).sendHead = head' ∧
      (t.tcb p).queueState.send = true) s by
    rw [Kernel.enqueueSend, wp_bind, wp_gets, id, henq, wp_bind, ofLinks, wp_pure]
    dsimp only
    rw [wp_bind, setSendQueue, wp_bind, wp_modTcb, setSendLinks, wp_modify, setSend, wp_modTcb]
    refine ⟨rfl, (sendHead_setSend rfl).trans ?_, ?_⟩
    · simp only [Function.update_self]
    · simp only [Function.update_self])
  obtain ⟨hlist, hhead, hbit⟩ := hQ
  refine ⟨t, ht, ?_, hbit, fun q hq => by rw [hlist, hframe q hq]⟩
  rw [KState.SendQueue, hlist, hhead]
  exact hqueue

theorem KState.SendQueue.dequeueSend (h : s.SendQueue owner L) (hp : p ∈ L) :
    ∃ t, dequeueSend p owner s = .ok ((), t) ∧ t.SendQueue owner (L.erase p) ∧
      (t.tcb p).queueState.send = false ∧ ∀ q ∉ L, t.sendList q = s.sendList q := by
  obtain ⟨head', list', hdeq, hqueue, -, hframe⟩ := IsQueue.dequeue h hp
  obtain ⟨_, t, ht, hQ⟩ := wp_iff_exists.mp (show wp (fun _ => False) (Kernel.dequeueSend p owner)
    (fun _ t => t.sendList = list' ∧ (t.tcb owner).sendHead = head' ∧
      (t.tcb p).queueState.send = false) s by
    rw [Kernel.dequeueSend, wp_bind, wp_gets, id, hdeq, wp_bind, ofLinks, wp_pure]
    dsimp only
    rw [wp_bind, setSendQueue, wp_bind, wp_modTcb, setSendLinks, wp_modify, setSend, wp_modTcb]
    refine ⟨rfl, (sendHead_setSend rfl).trans ?_, ?_⟩
    · simp only [Function.update_self]
    · simp only [Function.update_self])
  obtain ⟨hlist, hhead, hbit⟩ := hQ
  refine ⟨t, ht, ?_, hbit, fun q hq => by rw [hlist, hframe q hq]⟩
  rw [KState.SendQueue, hlist, hhead]
  exact hqueue

/-! ## All of them -/

/-- The macros refine the operations on lists, and so do the operations on send queues. -/
theorem queueMacros_refine (h : IsQueue list head L) :
    (tcb ∉ L → ∃ head' list', Ring.enqueueTail head list tcb = some (head', list') ∧
      IsQueue list' head' (L ++ [tcb]) ∧ ∀ p ∉ tcb :: L, list' p = list p) ∧
    (tcb ∉ L → ∃ head' list', Ring.enqueueHead head list tcb = some (head', list') ∧
      IsQueue list' head' (tcb :: L) ∧ ∀ p ∉ tcb :: L, list' p = list p) ∧
    (tcb ∈ L → ∃ head' list', Ring.dequeue head list tcb = some (head', list') ∧
      IsQueue list' head' (L.erase tcb) ∧ (head ≠ some tcb → head' = head) ∧
      ∀ p ∉ L, list' p = list p) ∧
    ∀ s owner, s.sendList = list → (s.tcb owner).sendHead = head →
      (tcb ∉ L → ∃ t, Kernel.enqueueSend tcb owner s = .ok ((), t) ∧
        t.SendQueue owner (L ++ [tcb]) ∧ (t.tcb tcb).queueState.send = true ∧
        ∀ p ∉ tcb :: L, t.sendList p = s.sendList p) ∧
      (tcb ∈ L → ∃ t, Kernel.dequeueSend tcb owner s = .ok ((), t) ∧
        t.SendQueue owner (L.erase tcb) ∧ (t.tcb tcb).queueState.send = false ∧
        ∀ p ∉ L, t.sendList p = s.sendList p) := by
  refine ⟨h.enqueueTail, h.enqueueHead, h.dequeue, fun s owner hlist hhead => ?_⟩
  subst hlist hhead
  have hqueue : s.SendQueue owner L := h
  exact ⟨hqueue.enqueueSend, hqueue.dequeueSend⟩

/-! ## A queue of two threads -/

def pairList (p q : TcbPtr) (x : TcbPtr) : Link TcbPtr :=
  if x = p then ⟨some q, some q⟩ else if x = q then ⟨some p, some p⟩ else ⟨none, none⟩

theorem isQueue_pairList (hpq : p ≠ q) : IsQueue (pairList p q) (some p) [p, q] := by
  have hp : pairList p q p = ⟨some q, some q⟩ := if_pos rfl
  have hq : pairList p q q = ⟨some p, some p⟩ := (if_neg hpq.symm).trans (if_pos rfl)
  refine .of_ring ⟨rfl, Cyc.cons_iff.mpr ⟨?_, ?_⟩⟩
  · simpa using hpq
  · simp [Linked, hp, hq]

/-- The head of two is taken out. -/
theorem dequeue_pairList : IsQueue (pairList (.t 0) .idle) (some (.t 0)) [.t 0, .idle] ∧
    ∃ head' list', Ring.dequeue (some (.t 0)) (pairList (.t 0) .idle) (.t 0) = some (head', list') ∧
      IsQueue list' head' [.idle] := by
  have hpair : IsQueue (pairList (.t 0) .idle) (some (.t 0)) [.t 0, .idle] := isQueue_pairList nofun
  obtain ⟨head', list', hdeq, hqueue, -⟩ :=
    (queueMacros_refine hpair).2.2.1 (List.mem_cons_self ..)
  rw [List.erase_cons_head] at hqueue
  exact ⟨hpair, head', list', hdeq, hqueue⟩

end L4Thread
