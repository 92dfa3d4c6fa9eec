import L4Thread.Theory.Queues
import Mathlib.Data.Fintype.Card
import Mathlib.Data.List.TakeWhile

/-!
# The next thread

`find_next_thread` against a specification of the choice: over the ready queues as lists, the first
thread of the highest priority that may run, with the threads in front of it taken out.
-/

namespace L4Thread

open TrapM Kernel Ring

variable {s t : KState} {p q : TcbPtr} {ok : TcbPtr → Bool} {R R' : Int → List TcbPtr} {n : Int}

/-! ## The specification -/

/-- From the queues `R`, the thread `p` is chosen and the queues `R'` are left; `ok` says which
threads may run. -/
structure NextThread (ok : TcbPtr → Bool) (R R' : Int → List TcbPtr) (p : TcbPtr) : Prop where
  idle_iff : p = .idle ↔ ∀ n, ∀ q ∈ R n, ok q = false
  /-- The first thread that may run, in the order of its queue, and of the highest priority. -/
  first : p ≠ .idle → ∃ n, (R n).find? ok = some p ∧ ∀ m, ∀ q ∈ R m, ok q → m ≤ n
  /-- The others stay, in their order. -/
  suffix : ∀ n, R' n <:+ R n
  dropped : ∀ n, ∀ q ∈ R n, q ∉ R' n → ok q = false

/-- The ready queues are circles with these members, whose bits are set, and the idle thread is in
none of them. -/
structure KState.ReadyQueues (s : KState) (R : Int → List TcbPtr) : Prop where
  rings : Rings s.readyList s.prioQueue R
  bit : ∀ p n, p ∈ R n ↔ (s.tcb p).queueState.ready = true ∧ (s.tcb p).priority = n
  idle : ∀ n, .idle ∉ R n

/-- The queues are empty outside the priorities up to `max_prio`. -/
def KState.PrioBound (s : KState) (R : Int → List TcbPtr) : Prop :=
  ∀ n, ∀ p ∈ R n, 0 ≤ n ∧ n ≤ s.maxPrio

/-- The threads that may run. -/
def KState.runnable (s : KState) (p : TcbPtr) : Bool := (s.tcb p).state.isRunnable

/-- The queues without the threads in front of priority `n` that may not run. -/
def dropFront (ok : TcbPtr → Bool) (R : Int → List TcbPtr) (n : Int) : Int → List TcbPtr :=
  Function.update R n ((R n).dropWhile fun q => !ok q)

theorem dropFront_suffix (m : Int) : dropFront ok R n m <:+ R m := by
  rcases eq_or_ne m n with rfl | hm
  · rw [dropFront, Function.update_self]
    exact List.dropWhile_suffix _
  · rw [dropFront, Function.update_of_ne hm]

theorem dropFront_dropped {m : Int} (hq : q ∈ R m) (hno : q ∉ dropFront ok R n m) :
    ok q = false := by
  rcases eq_or_ne m n with rfl | hm
  · rw [dropFront, Function.update_self] at hno
    rw [← List.takeWhile_append_dropWhile (p := fun q => !ok q) (l := R m)] at hq
    have htake := (List.mem_append.mp hq).resolve_right hno
    simpa using List.mem_takeWhile_imp htake
  · rw [dropFront, Function.update_of_ne hm] at hno
    exact absurd hq hno

/-- The choice of a thread in the queue that is searched, with the queues above it empty. -/
theorem NextThread.found (hp : p ≠ .idle) (hfind : (R n).find? ok = some p)
    (hmax : ∀ m, ∀ q ∈ R m, m ≤ n) : NextThread ok R (dropFront ok R n) p where
  idle_iff := by
    refine iff_of_false hp fun hnone => ?_
    have hok := List.find?_some hfind
    rw [hnone n p (List.mem_of_find?_eq_some hfind)] at hok
    cases hok
  first _ := ⟨n, hfind, fun m q hq _ => hmax m q hq⟩
  suffix := dropFront_suffix
  dropped _ _ := dropFront_dropped

/-- A queue without a thread that may run does not matter for the choice. -/
theorem NextThread.skip (hnone : (R n).find? ok = none)
    (h : NextThread ok (dropFront ok R n) R' p) : NextThread ok R R' p := by
  have hno : ∀ q ∈ R n, ok q = false := by simpa using List.find?_eq_none.mp hnone
  have hmem : ∀ {m q}, q ∈ R m → ok q → q ∈ dropFront ok R n m := by
    intro m q hq hok
    by_contra hdrop
    rw [dropFront_dropped hq hdrop] at hok
    cases hok
  constructor
  · rw [h.idle_iff]
    constructor
    · intro hall m q hq
      by_contra hok
      rw [Bool.not_eq_false] at hok
      rw [hall m q (hmem hq hok)] at hok
      cases hok
    · exact fun hall m q hq => hall m q ((dropFront_suffix m).subset hq)
  · intro hp
    obtain ⟨m, hfind, hmax⟩ := h.first hp
    refine ⟨m, ?_, fun k q hq hok => hmax k q (hmem hq hok) hok⟩
    rcases eq_or_ne m n with rfl | hm
    · have hin := (dropFront_suffix m).subset (List.mem_of_find?_eq_some hfind)
      have hok := List.find?_some hfind
      rw [hno p hin] at hok
      cases hok
    · rwa [dropFront, Function.update_of_ne hm] at hfind
  · exact fun m => (h.suffix m).trans (dropFront_suffix m)
  · intro m q hq hno'
    by_cases hdrop : q ∈ dropFront ok R n m
    · exact h.dropped m q hdrop hno'
    · exact dropFront_dropped hq hdrop

/-- Nothing is chosen from empty queues. -/
theorem NextThread.empty (h : ∀ m, R m = []) : NextThread ok R R .idle where
  idle_iff := iff_of_true rfl fun m q hq => by simp [h m] at hq
  first hp := absurd rfl hp
  suffix _ := List.suffix_rfl
  dropped m q hq := by simp [h m] at hq

/-! ## The search -/

/-- The members of a list without repetitions and without the idle thread fit in the TCB array. -/
theorem length_lt_numTcbs {L : List TcbPtr} (h : L.Nodup) (hidle : .idle ∉ L) :
    L.length < numTcbs := by
  let slot : TcbPtr → Fin (2 ^ validThreadnoBits) := fun p =>
    p.casesOn (fun i => i) ⟨0, by decide⟩
  have hinj : (L.map slot).Nodup := by
    refine h.map_on fun p hp q hq heq => ?_
    cases p with
    | idle => exact absurd hp hidle
    | t i =>
      cases q with
      | idle => exact absurd hq hidle
      | t j => exact congrArg TcbPtr.t heq
  have hle := hinj.length_le_card
  rw [List.length_map, Fintype.card_fin] at hle
  exact Nat.lt_succ_of_le hle

/-- The thread at the front of a queue is taken out. -/
theorem wp_dequeueReady_front {L : List TcbPtr} (h : s.ReadyQueues R) (hL : R n = p :: L) :
    wp (fun _ => False) (dequeueReady p) (fun _ t => t.ReadyQueues (Function.update R n L) ∧
      t.maxPrio = s.maxPrio ∧ t.runnable = s.runnable) s := by
  have hp : p ∈ R n := hL ▸ List.mem_cons_self
  obtain ⟨hbit, rfl⟩ := (h.bit p n).mp hp
  obtain ⟨head, links, hdeq, hrings⟩ := h.rings.dequeue hp
  have hnodup : (p :: L).Nodup := hL ▸ (h.rings.ring _).cyc.nodup
  rw [hL, List.erase_cons_head] at hrings
  rw [dequeueReady, wp_bind, wp_readTcb, wp_ite, if_pos hbit]
  simp only [wp_bind, wp_gets, id, hdeq, ofLinks, wp_pure, setReadyQueue, wp_modify, setReady,
    wp_modTcb]
  have hmem : ∀ q m, q ∈ Function.update R (s.tcb p).priority L m ↔ q ∈ R m ∧ q ≠ p := by
    intro q m
    rcases eq_or_ne m (s.tcb p).priority with rfl | hm
    · rw [Function.update_self, hL, List.mem_cons]
      constructor
      · intro hq
        exact ⟨.inr hq, fun heq => (List.nodup_cons.mp hnodup).1 (heq ▸ hq)⟩
      · rintro ⟨heq | hq, hne⟩
        · exact absurd heq hne
        · exact hq
    · rw [Function.update_of_ne hm]
      refine ⟨fun hq => ⟨hq, ?_⟩, And.left⟩
      rintro rfl
      exact hm (h.rings.disjoint hq hp)
  refine ⟨⟨hrings, fun q m => ?_, fun m hidle => h.idle m ((hmem _ _).mp hidle).1⟩, trivial, ?_⟩
  · rw [hmem, h.bit]
    rcases eq_or_ne q p with rfl | hq
    · simp
    · simp [hq]
  · funext q
    rcases eq_or_ne q p with rfl | hq
    · simp [KState.runnable]
    · simp [KState.runnable, hq]

theorem dropFront_eq_self (h : ∀ p L, R n = p :: L → ok p) : dropFront ok R n = R := by
  refine Function.update_eq_self_iff.mpr ?_
  cases hL : R n with
  | nil => rfl
  | cons p L => simp [h p L hL]

theorem dropFront_update {L : List TcbPtr} (hL : R n = p :: L) (hp : ok p = false) :
    dropFront ok (Function.update R n L) n = dropFront ok R n := by
  simp [dropFront, hL, hp]

/-- The inner loop: the queue is searched from its head. -/
theorem wp_findRunnable {fuel : Nat} (h : s.ReadyQueues R) (hfuel : (R n).length < fuel) :
    wp (fun _ => False) (findRunnable n fuel) (fun o t =>
      t.ReadyQueues (dropFront s.runnable R n) ∧ o = (R n).find? s.runnable ∧
        t.maxPrio = (if o.isSome then n else s.maxPrio) ∧ t.runnable = s.runnable) s := by
  induction fuel generalizing s R with
  | zero => exact absurd hfuel (Nat.not_lt_zero _)
  | succ fuel ih =>
    have hhead : s.prioQueue n = (R n).head? := (h.rings.ring n).head_eq
    rw [findRunnable, wp_bind, wp_gets, hhead]
    cases hL : R n with
    | nil =>
      have hself : dropFront s.runnable R n = R := dropFront_eq_self fun p L hcons => by
        rw [hL] at hcons
        cases hcons
      rw [hself]
      exact ⟨h, rfl, rfl, rfl⟩
    | cons p L =>
      rw [hL] at hhead
      simp only [List.head?_cons, getState, wp_bind, wp_readTcb, wp_pure]
      rw [wp_ite]
      cases hok : s.runnable p with
      | true =>
        have hrun : (s.tcb p).state.isRunnable = true := hok
        have hself : dropFront s.runnable R n = R := dropFront_eq_self fun q M hcons => by
          rw [hL] at hcons
          cases hcons
          exact hok
        have hprio : Function.update s.prioQueue n (some p) = s.prioQueue :=
          Function.update_eq_self_iff.mpr hhead.symm
        simp only [hrun, if_true, setPrioQueue, setMaxPrio, wp_bind, wp_modify, wp_pure, hprio,
          hself]
        exact ⟨⟨h.rings, h.bit, h.idle⟩, by simp [hok], rfl, rfl⟩
      | false =>
        have hrun : (s.tcb p).state.isRunnable = false := hok
        rw [hrun, if_neg Bool.false_ne_true, wp_bind]
        refine wp_mono (wp_dequeueReady_front h hL) fun _ s1 hpost => ?_
        obtain ⟨h1, hmax, hok1⟩ := hpost
        have hlen : (Function.update R n L n).length < fuel := by
          rw [Function.update_self]
          rw [hL] at hfuel
          exact Nat.lt_of_succ_lt_succ hfuel
        refine wp_mono (ih h1 hlen) fun o t hpost => ?_
        obtain ⟨ht, ho, hprio, hrun'⟩ := hpost
        rw [hok1] at ht ho hrun'
        rw [Function.update_self] at ho
        rw [dropFront_update hL hok] at ht
        refine ⟨ht, ?_, hmax ▸ hprio, hrun'⟩
        rw [ho, List.find?_cons_of_neg (by simp [hok])]

/-- The outer loop: the queues are searched from priority `n - 1` down. -/
theorem wp_findBelow {n : Nat} (h : s.ReadyQueues R) (hbound : ∀ m, ∀ q ∈ R m, 0 ≤ m ∧ m < n) :
    wp (fun _ => False) (findBelow n) (fun p t => ∃ R', t.ReadyQueues R' ∧ t.PrioBound R' ∧
      NextThread s.runnable R R' p) s := by
  induction n generalizing s R with
  | zero =>
    have hempty : ∀ m, R m = [] := fun m => List.eq_nil_iff_forall_not_mem.mpr fun q hq => by
      have hlt := hbound m q hq
      omega
    rw [findBelow, wp_bind, setMaxPrio, wp_modify]
    refine ⟨R, ⟨h.rings, h.bit, h.idle⟩, fun m q hq => ?_, .empty hempty⟩
    rw [hempty m] at hq
    cases hq
  | succ n ih =>
    have hfuel : (R n).length < numTcbs :=
      length_lt_numTcbs (h.rings.ring n).cyc.nodup (h.idle n)
    rw [findBelow, wp_bind]
    refine wp_mono (wp_findRunnable h hfuel) fun o s1 hpost => ?_
    obtain ⟨h1, ho, hmax, hok⟩ := hpost
    cases o with
    | some p =>
      have hle : ∀ m, ∀ q ∈ R m, m ≤ n := fun m q hq => by
        have hlt := (hbound m q hq).2
        omega
      have hp : p ≠ .idle := by
        rintro rfl
        exact h.idle n (List.mem_of_find?_eq_some ho.symm)
      refine ⟨_, h1, fun m q hq => ?_, .found hp ho.symm hle⟩
      have hin := (dropFront_suffix m).subset hq
      refine ⟨(hbound m q hin).1, ?_⟩
      rw [hmax]
      exact hle m q hin
    | none =>
      have hbelow : ∀ m, ∀ q ∈ dropFront s.runnable R n m, 0 ≤ m ∧ m < n := by
        intro m q hq
        have hin := (dropFront_suffix m).subset hq
        have hm := hbound m q hin
        refine ⟨hm.1, ?_⟩
        by_contra hge
        obtain rfl : m = n := by omega
        have hnone : ∀ x ∈ R n, s.runnable x = false := by
          simpa using List.find?_eq_none.mp ho.symm
        have hnil : (R n).dropWhile (fun x => !s.runnable x) = [] :=
          List.dropWhile_eq_nil_iff.mpr fun x hx => by simp [hnone x hx]
        rw [dropFront, Function.update_self, hnil] at hq
        cases hq
      refine wp_mono (ih h1 hbelow) fun p t hpost => ?_
      obtain ⟨R', ht, hprio, hsel⟩ := hpost
      rw [hok] at hsel
      exact ⟨R', ht, hprio, hsel.skip ho.symm⟩

/-- `find_next_thread` returns from every representation of ready queues, with the thread and the
queues of the specification. -/
theorem findNextThread_selects (h : s.ReadyQueues R) (hbound : s.PrioBound R) :
    ∃ p t R', findNextThread s = .ok (p, t) ∧ t.ReadyQueues R' ∧ t.PrioBound R' ∧
      NextThread s.runnable R R' p := by
  have hwp : wp (fun _ => False) findNextThread (fun p t => ∃ R', t.ReadyQueues R' ∧
      t.PrioBound R' ∧ NextThread s.runnable R R' p) s := by
    rw [findNextThread, wp_bind, wp_gets]
    refine wp_findBelow h fun m q hq => ?_
    have hm := hbound m q hq
    omega
  obtain ⟨p, t, hrun, R', ht⟩ := wp_iff_exists.mp hwp
  exact ⟨p, t, R', hrun, ht⟩

/-- One thread that may run, in the highest queue. -/
def KState.oneReady (p : TcbPtr) : KState :=
  { KState.zero .sample with
    tcb := fun q => if q = p then
      { Tcb.zero with priority := rootPriority, queueState := ⟨true, false, false⟩ } else .zero
    readyList := fun q => if q = p then ⟨some p, some p⟩ else ⟨none, none⟩
    prioQueue := fun n => if n = rootPriority then some p else none
    maxPrio := rootPriority }

theorem KState.oneReady_readyQueues (hp : p ≠ .idle) :
    (oneReady p).ReadyQueues fun n => if n = rootPriority then [p] else [] := by
  refine ⟨⟨fun n => ?_, fun {m n q} hm hn => ?_⟩, fun q n => ?_, fun n => ?_⟩
  · by_cases hn : n = rootPriority
    · simp only [oneReady, hn, if_true]
      exact ⟨rfl, Cyc.singleton_iff.mpr (if_pos rfl)⟩
    · simp only [oneReady, hn, if_false]
      exact ⟨rfl, .nil⟩
  · split at hm <;> split at hn <;> simp_all
  · by_cases hq : q = p
    · subst hq
      simp [oneReady, eq_comm]
    · simp [oneReady, hq, Tcb.zero, QueueState.zero]
  · split <;> simp [hp.symm]

/-- The one thread is found. -/
theorem exists_findNextThread_selects : ∃ (s t : KState) (p : TcbPtr)
    (R R' : Int → List TcbPtr), p ≠ .idle ∧
    findNextThread s = .ok (p, t) ∧ NextThread s.runnable R R' p := by
  have hready := KState.oneReady_readyQueues (p := getTcb sigma0Tid) nofun
  obtain ⟨p, t, R', hrun, -, -, hsel⟩ := findNextThread_selects hready fun n q hq => by
    split at hq
    · rename_i hn
      subst hn
      exact ⟨by decide, le_rfl⟩
    · cases hq
  refine ⟨_, t, p, _, R', fun hidle => ?_, hrun, hsel⟩
  have hnone := hsel.idle_iff.mp hidle rootPriority (getTcb sigma0Tid)
    (List.mem_singleton_self _)
  revert hnone
  decide +kernel

end L4Thread
