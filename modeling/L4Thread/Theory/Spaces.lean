import Mathlib.Data.Set.Card
import L4Thread.Lib.Ownership
import L4Thread.Theory.Boot
import L4Thread.Theory.Kmem

/-!
# Address spaces and their threads

A space counts its threads, and its memory is freed when the last one leaves. `MemInv` says that the
counts are right and that the memory of a space in use, and of its UTCB pages, belongs to that space
and is not free.

Migration breaks this: it does not count the thread in its new space, and when the old space becomes
empty it removes the mappings of the new one. Attaching an interrupt to a TCB that holds an inactive
user thread takes it out of its space without counting. In runs without these, the invariant holds.
-/

namespace L4Thread

open TrapM Kernel Ownership

/-! ## The invariant -/

/-- The owner of a chunk of kernel memory: a space, or the UTCB page of a space at an address. -/
inductive Owner
  | space (addr : Nat)
  | page (addr page : Nat)
  deriving DecidableEq

/-- The threads of a space. -/
def members (T : TcbPtr → Option SpacePtr) (addr : Nat) : Set TcbPtr := { q | T q = some (.heap addr) }

/-- The spaces in use own their memory, and count their threads. -/
structure MemInv (own : Nat → Option Owner) (T : TcbPtr → Option SpacePtr) (S : SpacePtr → Space)
    (k : Kmem) : Prop where
  free : Free own k.freeList
  idle (i : Fin (2 ^ validThreadnoBits)) : T (.t i) ≠ some .idle
  space {p : TcbPtr} {addr c : Nat} : T p = some (.heap addr) →
    c ∈ Kmem.chunks addr sizeofSpace → own c = some (.space addr)
  page {p : TcbPtr} {addr c : Nat} {m : Nat × Nat} : T p = some (.heap addr) →
    m ∈ (S (.heap addr)).utcbPages → c ∈ Kmem.chunks m.2 pageSize → own c = some (.page addr m.1)
  keys {p : TcbPtr} {addr : Nat} : T p = some (.heap addr) →
    ((S (.heap addr)).utcbPages.map Prod.fst).Nodup
  count {p : TcbPtr} {addr : Nat} : T p = some (.heap addr) →
    (S (.heap addr)).threadCount.toNat = (members T addr).ncard

variable {own : Nat → Option Owner} {T : TcbPtr → Option SpacePtr} {S S' : SpacePtr → Space}
  {k k' : Kmem} {p d : TcbPtr} {addr a b : Nat} {c : Space}

/-- The slot of a TCB pointer. -/
def TcbPtr.slot : TcbPtr → Option (Fin (2 ^ validThreadnoBits))
  | .t i => some i
  | .idle => none

theorem TcbPtr.slot_injective : Function.Injective TcbPtr.slot := by
  intro p q h
  cases p <;> cases q <;> simp_all [TcbPtr.slot]

instance : Finite TcbPtr := Finite.of_injective _ TcbPtr.slot_injective

theorem ncard_members_lt (T : TcbPtr → Option SpacePtr) (addr : Nat) :
    (members T addr).ncard < 2 ^ 64 := by
  have h1 : (members T addr).ncard ≤ Nat.card TcbPtr := Set.ncard_le_card _
  have h2 : Nat.card TcbPtr ≤ Nat.card (Option (Fin (2 ^ validThreadnoBits))) :=
    Nat.card_le_card_of_injective _ TcbPtr.slot_injective
  have h3 : Nat.card (Option (Fin (2 ^ validThreadnoBits))) = 2 ^ validThreadnoBits + 1 := by
    simp
  have h4 : 2 ^ validThreadnoBits + 1 < 2 ^ 64 := by decide
  omega

/-! ### Threads join and leave -/

theorem members_update_join (hd : T d = none) :
    members (Function.update T d (some (.heap addr))) addr = insert d (members T addr) := by
  ext q
  rcases eq_or_ne q d with rfl | hq
  · simp [members]
  · simp [members, hq]

theorem members_update_of_ne {o : Option SpacePtr} (hd : T d ≠ some (.heap b))
    (ho : o ≠ some (.heap b)) : members (Function.update T d o) b = members T b := by
  ext q
  rcases eq_or_ne q d with rfl | hq
  · simp [members, hd, ho]
  · simp [members, hq]

theorem members_update_leave :
    members (Function.update T d none) b = members T b \ {d} := by
  ext q
  rcases eq_or_ne q d with rfl | hq
  · simp [members]
  · simp [members, hq]


/-! ### Changes of the memory -/

/-- The UTCB and kernel interface page areas do not matter. -/
theorem MemInv.congr (h : MemInv own T S k)
    (hS : ∀ sp, (S' sp).utcbPages = (S sp).utcbPages ∧ (S' sp).threadCount = (S sp).threadCount) :
    MemInv own T S' k where
  free := h.free
  idle := h.idle
  space hp hc := h.space hp hc
  page hp hm hc := h.page hp ((hS _).1 ▸ hm) hc
  keys hp := by
    rw [(hS _).1]
    exact h.keys hp
  count hp := by
    rw [(hS _).2]
    exact h.count hp

/-- Memory from the allocator belongs to no space in use. -/
theorem MemInv.fresh (h : MemInv own T S k) (halloc : k.alloc sizeofSpace = some (a, k')) :
    T p ≠ some (.heap a) := by
  intro hp
  obtain ⟨-, hperm⟩ := Kmem.alloc_perm halloc (by decide)
  have hmem : a ∈ Kmem.chunks a sizeofSpace := by
    simp [Kmem.chunks, Kmem.chunkSize, sizeofSpace]
  have hfree : a ∈ k.freeList := hperm.mem_iff.mpr (List.mem_append_left _ hmem)
  exact h.free.notMem (h.space hp hmem) hfree

/-- A thread gets a new space. -/
theorem MemInv.alloc (h : MemInv own T S k) (halloc : k.alloc sizeofSpace = some (a, k'))
    (hd : T d = none) (hcount : c.threadCount = 1) (hpages : c.utcbPages = []) :
    MemInv (assign own (Kmem.chunks a sizeofSpace) (.space a))
      (Function.update T d (some (.heap a))) (Function.update S (.heap a) c) k' := by
  obtain ⟨-, hperm⟩ := Kmem.alloc_perm halloc (by decide)
  have hkeep : ∀ {ch : Nat} {o : Owner}, own ch = some o →
      assign own (Kmem.chunks a sizeofSpace) (.space a) ch = some o := by
    intro ch o ho
    rw [assign_of_notMem, ho]
    intro hm
    exact h.free.notMem ho (hperm.mem_iff.mpr (List.mem_append_left _ hm))
  have hold : ∀ {q : TcbPtr} {b : Nat}, b ≠ a →
      Function.update T d (some (.heap a)) q = some (.heap b) → T q = some (.heap b) := by
    intro q b hb hq
    rcases eq_or_ne q d with rfl | hqd
    · simp [hb.symm] at hq
    · simpa [hqd] using hq
  refine ⟨h.free.take hperm, fun i => ?_, ?_, ?_, ?_, ?_⟩
  · rcases eq_or_ne (TcbPtr.t i) d with rfl | hi
    · simp
    · simpa [hi] using h.idle i
  · intro q b ch hq hch
    rcases eq_or_ne b a with rfl | hb
    · exact assign_of_mem hch
    · exact hkeep (h.space (hold hb hq) hch)
  · intro q b ch m hq hm hch
    rcases eq_or_ne b a with rfl | hb
    · simp [hpages] at hm
    · rw [Function.update_of_ne (by simp [hb])] at hm
      exact hkeep (h.page (hold hb hq) hm hch)
  · intro q b hq
    rcases eq_or_ne b a with rfl | hb
    · simp [hpages]
    · rw [Function.update_of_ne (by simp [hb])]
      exact h.keys (hold hb hq)
  · intro q b hq
    rcases eq_or_ne b a with rfl | hb
    · have hempty : members T b = ∅ :=
        Set.eq_empty_iff_forall_notMem.mpr fun q => h.fresh halloc
      rw [members_update_join hd, hempty, Function.update_self, hcount]
      simp
    · rw [Function.update_of_ne (by simp [hb]), members_update_of_ne (by simp [hd])
        (by simp [hb.symm])]
      exact h.count (hold hb hq)

/-- A thread joins a space in use. -/
theorem MemInv.join (h : MemInv own T S k) (hp : T p = some (.heap a)) (hd : T d = none) :
    MemInv own (Function.update T d (some (.heap a)))
      (Function.update S (.heap a)
        { S (.heap a) with threadCount := (S (.heap a)).threadCount + 1 }) k := by
  have hold : ∀ {q : TcbPtr} {b : Nat}, Function.update T d (some (.heap a)) q = some (.heap b) →
      ∃ q', T q' = some (.heap b) := by
    intro q b hq
    rcases eq_or_ne q d with rfl | hqd
    · obtain rfl : a = b := by simpa using hq
      exact ⟨p, hp⟩
    · exact ⟨q, by simpa [hqd] using hq⟩
  have hS : ∀ b, (Function.update S (.heap a)
      { S (.heap a) with threadCount := (S (.heap a)).threadCount + 1 } (.heap b)).utcbPages =
      (S (.heap b)).utcbPages := by
    intro b
    rcases eq_or_ne b a with rfl | hb
    · simp
    · simp [hb]
  refine ⟨h.free, fun i => ?_, ?_, ?_, ?_, ?_⟩
  · rcases eq_or_ne (TcbPtr.t i) d with rfl | hi
    · simp
    · simpa [hi] using h.idle i
  · intro q b ch hq hch
    obtain ⟨q', hq'⟩ := hold hq
    exact h.space hq' hch
  · intro q b ch m hq hm hch
    obtain ⟨q', hq'⟩ := hold hq
    exact h.page hq' (hS b ▸ hm) hch
  · intro q b hq
    obtain ⟨q', hq'⟩ := hold hq
    rw [hS b]
    exact h.keys hq'
  · intro q b hq
    obtain ⟨q', hq'⟩ := hold hq
    rcases eq_or_ne b a with rfl | hb
    · have hlt := ncard_members_lt (Function.update T d (some (.heap b))) b
      have hnot : d ∉ members T b := by simp [members, hd]
      rw [members_update_join hd, Set.ncard_insert_of_notMem hnot (Set.toFinite _)] at hlt ⊢
      have hcount := h.count hp
      simp only [Function.update_self]
      bv_omega
    · rw [Function.update_of_ne (by simp [hb]), members_update_of_ne (by simp [hd])
        (by simp [hb.symm])]
      exact h.count hq'

/-- A UTCB page is mapped into a space in use. -/
theorem MemInv.mapPage (h : MemInv own T S k) (hp : T p = some (.heap a)) {v page : Nat}
    {alignment mask : Nat} (halloc : k.allocAligned pageSize alignment mask = some (page, k'))
    (hv : v ∉ (S (.heap a)).utcbPages.map Prod.fst) :
    MemInv (assign own (Kmem.chunks page pageSize) (.page a v)) T
      (Function.update S (.heap a)
        { S (.heap a) with utcbPages := (v, page) :: (S (.heap a)).utcbPages }) k' := by
  have hperm := Kmem.allocAligned_perm halloc (by decide)
  have hkeep : ∀ {ch : Nat} {o : Owner}, own ch = some o →
      assign own (Kmem.chunks page pageSize) (.page a v) ch = some o := by
    intro ch o ho
    rw [assign_of_notMem, ho]
    intro hm
    exact h.free.notMem ho (hperm.mem_iff.mpr (List.mem_append_left _ hm))
  refine ⟨h.free.take hperm, h.idle, fun hq hch => hkeep (h.space hq hch), ?_, ?_, ?_⟩
  · intro q b ch m hq hm hch
    rcases eq_or_ne b a with rfl | hb
    · simp only [Function.update_self, List.mem_cons] at hm
      rcases hm with rfl | hm
      · exact assign_of_mem hch
      · exact hkeep (h.page hq hm hch)
    · rw [Function.update_of_ne (by simp [hb])] at hm
      exact hkeep (h.page hq hm hch)
  · intro q b hq
    rcases eq_or_ne b a with rfl | hb
    · simp only [Function.update_self, List.map_cons]
      exact List.nodup_cons.mpr ⟨hv, h.keys hq⟩
    · rw [Function.update_of_ne (by simp [hb])]
      exact h.keys hq
  · intro q b hq
    rcases eq_or_ne b a with rfl | hb
    · rw [Function.update_self]
      exact h.count hq
    · rw [Function.update_of_ne (by simp [hb])]
      exact h.count hq

/-- A thread leaves its space. -/
theorem MemInv.leave (h : MemInv own T S k) (hd : T d = some (.heap a)) :
    MemInv own (Function.update T d none)
      (Function.update S (.heap a)
        { S (.heap a) with threadCount := (S (.heap a)).threadCount - 1 }) k := by
  have hold : ∀ {q : TcbPtr} {b : Nat}, Function.update T d none q = some (.heap b) →
      T q = some (.heap b) := by
    intro q b hq
    rcases eq_or_ne q d with rfl | hqd
    · simp at hq
    · simpa [hqd] using hq
  have hS : ∀ b, (Function.update S (.heap a)
      { S (.heap a) with threadCount := (S (.heap a)).threadCount - 1 } (.heap b)).utcbPages =
      (S (.heap b)).utcbPages := by
    intro b
    rcases eq_or_ne b a with rfl | hb
    · simp
    · simp [hb]
  refine ⟨h.free, fun i => ?_, fun hq hch => h.space (hold hq) hch,
    fun hq hm hch => h.page (hold hq) (hS _ ▸ hm) hch, fun hq => ?_, ?_⟩
  · rcases eq_or_ne (TcbPtr.t i) d with rfl | hi
    · simp
    · simpa [hi] using h.idle i
  · rw [hS]
    exact h.keys (hold hq)
  · intro q b hq
    rw [members_update_leave]
    rcases eq_or_ne b a with rfl | hb
    · have hlt := ncard_members_lt T b
      have hmem : d ∈ members T b := hd
      have hpos : 0 < (members T b).ncard := (Set.ncard_pos (Set.toFinite _)).mpr ⟨d, hmem⟩
      have hcount := h.count hd
      rw [Set.ncard_sdiff_singleton_of_mem hmem]
      simp only [Function.update_self]
      bv_omega
    · have hmem : d ∉ members T b := by simp [members, hd, hb.symm]
      rw [Set.sdiff_singleton_eq_self hmem, Function.update_of_ne (by simp [hb])]
      exact h.count (hold hq)

theorem MemInv.count_eq_one_iff (h : MemInv own T S k) (hd : T d = some (.heap a)) :
    (S (.heap a)).threadCount - 1 = 0 ↔ ∀ q, Function.update T d none q ≠ some (.heap a) := by
  have hlt := ncard_members_lt T a
  have hcount := h.count hd
  have hmem : d ∈ members T a := hd
  have hpos : 0 < (members T a).ncard := (Set.ncard_pos (Set.toFinite _)).mpr ⟨d, hmem⟩
  have hdiff := Set.ncard_sdiff_singleton_of_mem hmem
  rw [← members_update_leave] at hdiff
  have hzero : (members (Function.update T d none) a).ncard = 0 ↔
      ∀ q, Function.update T d none q ≠ some (.heap a) := by
    rw [Set.ncard_eq_zero (Set.toFinite _), Set.eq_empty_iff_forall_notMem]
    rfl
  rw [← hzero]
  bv_omega

/-- The memory of a space that no thread is left in is given back. -/
theorem MemInv.release {B : List Nat} (h : MemInv own T S k) (hlast : ∀ q, T q ≠ some (.heap a))
    (hB : B.Nodup) (hown : ∀ ch ∈ B, own ch = some (.space a) ∨ ∃ v, own ch = some (.page a v))
    (hperm : k'.freeList.Perm (B ++ k.freeList)) (hS : ∀ b ≠ a, S' (.heap b) = S (.heap b)) :
    MemInv (clear own B) T S' k' := by
  have hne : ∀ {q : TcbPtr} {b : Nat}, T q = some (.heap b) → b ≠ a := by
    rintro q b hq rfl
    exact hlast q hq
  refine ⟨h.free.give hB (fun ch hch => ?_) hperm, h.idle, fun hq hch => ?_, fun hq hm hch => ?_,
    fun hq => ?_, fun hq => ?_⟩
  · rcases hown ch hch with ho | ⟨v, ho⟩ <;> simp [ho]
  · have ho := h.space hq hch
    rw [clear_of_notMem, ho]
    intro hm
    rcases hown _ hm with ho' | ⟨v, ho'⟩
    · rw [ho] at ho'
      cases ho'
      exact hne hq rfl
    · rw [ho] at ho'
      cases ho'
  · rw [hS _ (hne hq)] at hm
    have ho := h.page hq hm hch
    rw [clear_of_notMem, ho]
    intro hm
    rcases hown _ hm with ho' | ⟨v, ho'⟩
    · rw [ho] at ho'
      cases ho'
    · rw [ho] at ho'
      cases ho'
      exact hne hq rfl
  · rw [hS _ (hne hq)]
    exact h.keys hq
  · rw [hS _ (hne hq)]
    exact h.count hq

/-! ### The frames of a space -/

theorem freeFrames_perm (frames : List (Nat × Nat)) (k : Kmem) :
    (frames.foldl (fun k m => k.free m.2 pageSize) k).freeList.Perm
      (frames.flatMap (fun m => Kmem.chunks m.2 pageSize) ++ k.freeList) := by
  induction frames generalizing k with
  | nil => simp
  | cons m frames ih =>
    rw [List.foldl_cons, List.flatMap_cons, List.append_assoc]
    refine (ih _).trans ?_
    refine ((Kmem.free_perm (by decide)).append_left _).trans ?_
    exact List.perm_append_comm_assoc _ _ _

/-- The chunks of a space in use and of some of its UTCB pages are distinct. -/
theorem MemInv.nodup_chunks (h : MemInv own T S k) (hd : T d = some (.heap a))
    {frames : List (Nat × Nat)} (hf : frames.Sublist (S (.heap a)).utcbPages) :
    (Kmem.chunks a sizeofSpace ++ frames.flatMap fun m => Kmem.chunks m.2 pageSize).Nodup := by
  have hkeys : frames.Pairwise fun m m' => m.1 ≠ m'.1 :=
    List.pairwise_map.mp ((hf.map Prod.fst).nodup (h.keys hd))
  refine List.nodup_append.mpr ⟨Kmem.chunks_nodup, List.nodup_flatMap.mpr
    ⟨fun _ _ => Kmem.chunks_nodup, ?_⟩, ?_⟩
  · refine hkeys.imp_of_mem fun {m m'} hm hm' hne => ?_
    intro ch hch hch'
    have h1 := h.page hd (hf.subset hm) hch
    have h2 := h.page hd (hf.subset hm') hch'
    rw [h1] at h2
    exact hne (by simpa using h2)
  · rintro ch hch _ hch' rfl
    obtain ⟨m, hm, hch'⟩ := List.mem_flatMap.mp hch'
    have h1 := h.space hd hch
    rw [h.page hd (hf.subset hm) hch'] at h1
    cases h1

theorem MemInv.owned_chunks (h : MemInv own T S k) (hd : T d = some (.heap a))
    {frames : List (Nat × Nat)} (hf : frames.Sublist (S (.heap a)).utcbPages) {ch : Nat}
    (hch : ch ∈ Kmem.chunks a sizeofSpace ++ frames.flatMap fun m => Kmem.chunks m.2 pageSize) :
    own ch = some (.space a) ∨ ∃ v, own ch = some (.page a v) := by
  rcases List.mem_append.mp hch with hch | hch
  · exact .inl (h.space hd hch)
  · obtain ⟨m, hm, hch⟩ := List.mem_flatMap.mp hch
    exact .inr ⟨m.1, h.page hd (hf.subset hm) hch⟩

/-! ## The invariant of the state -/

/-- The part of the state the invariant is about. -/
structure Mem where
  spaceOf : TcbPtr → Option SpacePtr
  space : SpacePtr → Space
  kmem : Kmem

def KState.mem (s : KState) : Mem := ⟨fun p => (s.tcb p).space, s.space, s.kmem⟩

def Mem.Inv (m : Mem) : Prop := ∃ own, MemInv own m.spaceOf m.space m.kmem

/-- The space at `addr` has a thread. -/
def KState.Live (s : KState) (addr : Nat) : Prop := ∃ p, (s.tcb p).space = some (.heap addr)

/-- The memory of a space at `addr` is free. -/
def KState.Freed (s : KState) (addr : Nat) : Prop :=
  ∀ c ∈ Kmem.chunks addr sizeofSpace, c ∈ s.kmem.freeList

variable {s t : KState} {α : Type} {x : Kernel α} {args : ThreadControlArgs} {tid : ThreadId}

abbrev KeepsMem {α : Type} (x : Kernel α) : Prop := Keeps KState.mem x

@[grind ←] theorem KeepsIdent.mem (h : KeepsIdent x) : KeepsMem x :=
  h.comp fun i : Ident => Mem.mk (fun p => (i.tcb p).space) i.space i.kmem

@[grind ←] theorem keepsMem_modTcb {f : Tcb → Tcb} (h : ∀ c, (f c).space = c.space) :
    KeepsMem (modTcb p f) := by
  refine .modify fun s => ?_
  simp only [KState.mem, Mem.mk.injEq, and_true]
  funext q
  rcases eq_or_ne q p with rfl | hq
  · simp [h]
  · simp [hq]

@[grind ←] theorem keepsMem_zeroUtcbPage {n : Nat} : KeepsMem (zeroUtcbPage n) :=
  .modify fun _ => rfl

/-! ### UTCBs -/

theorem wp_allocateUtcb_mem {loc : Word} (h : s.mem.Inv) (hp : (s.tcb p).space = some (.heap a)) :
    wp (fun _ => True) (allocateUtcb (some (.heap a)) loc)
      (fun _ t => t.mem.Inv ∧ t.mem.spaceOf = s.mem.spaceOf) s := by
  obtain ⟨own, h⟩ := h
  simp only [allocateUtcb, wp_bind, derefSpace, wp_pure, wp_gets]
  split
  · exact ⟨⟨own, h⟩, rfl⟩
  · rename_i hnone
    rw [wp_bind, wp_gets]
    split
    · trivial
    · rename_i page kmem halloc
      simp only [wp_bind, wp_modKmem, zeroUtcbPage, wp_modify, wp_modSpace, wp_pure]
      refine ⟨⟨_, h.mapPage hp halloc fun hm => ?_⟩, rfl⟩
      obtain ⟨m, hm, hkey⟩ := List.mem_map.mp hm
      have := List.lookup_eq_none_iff.mp hnone m hm
      simp [← hkey] at this

theorem wp_activate_mem {n : Notify} (h : s.mem.Inv) (hp : (s.tcb p).space = some (.heap a)) :
    wp (fun _ => True) (activate p n tid)
      (fun _ t => t.mem.Inv ∧ t.mem.spaceOf = s.mem.spaceOf) s := by
  rw [activate, wp_bind, wp_readTcb, wp_bind, hp]
  refine wp_mono (wp_allocateUtcb_mem h hp) fun u t hpost => ?_
  obtain ⟨hinv, hsp⟩ := hpost
  refine Keeps.wp (f := KState.mem) ?_ fun _ t' ht' => ?_
  · unfold setGlobalId setPager createStartupStack
    repeat' with_reducible refine Keeps.bind ?_ fun _ => ?_
    all_goals grind
  · rw [ht']
    exact ⟨hinv, hsp⟩

theorem wp_startThread_mem (h : s.mem.Inv) (hp : (s.tcb p).space = some (.heap a)) :
    wp (fun _ => True) (startThread p tid)
      (fun _ t => t.mem.Inv ∧ t.mem.spaceOf = s.mem.spaceOf) s := by
  rw [startThread, wp_bind]
  refine wp_mono (wp_activate_mem h hp) fun _ t hpost => ?_
  obtain ⟨hinv, hsp⟩ := hpost
  refine (keepsIdent_fakeWaitForStartup (p := p)).mem.wp fun _ t' ht' => ?_
  rw [ht']
  exact ⟨hinv, hsp⟩

/-! ### Creation -/

theorem KState.spaceOf_update (c : Tcb) :
    (fun q => (Function.update s.tcb p c q).space) =
      Function.update s.mem.spaceOf p c.space := by
  funext q
  rcases eq_or_ne q p with rfl | hq
  · simp
  · simp [KState.mem, hq]

/-- A thread joins the space `o`, which may be new. -/
theorem wp_addThread_mem {o : Option SpacePtr}
    (hinv : ∀ sp, o = some sp → ∃ own addr, sp = .heap addr ∧
      MemInv own (Function.update s.mem.spaceOf p (some sp))
        (Function.update s.space sp { s.space sp with threadCount := (s.space sp).threadCount + 1 })
        s.kmem) :
    wp (fun _ => True) (do
      setSpace p o
      addTcb o
      if !args.pagerTid.isNilthread then startThread p args.pagerTid)
      (fun _ t => t.mem.Inv ∧ t.mem.spaceOf = Function.update s.mem.spaceOf p o) s := by
  rw [wp_bind, setSpace, wp_modTcb, wp_bind, addTcb, wp_bind, wp_derefSpace]
  refine ⟨fun _ => trivial, fun sp ho => ?_⟩
  obtain ⟨own, addr, rfl, h⟩ := hinv sp ho
  subst ho
  rw [wp_modSpace]
  have hupd : Function.update s.mem.spaceOf p (some (.heap addr)) = _ :=
    (KState.spaceOf_update { s.tcb p with space := some (.heap addr) }).symm
  rw [hupd] at h ⊢
  rw [wp_ite]
  split
  · exact wp_startThread_mem (a := addr) ⟨own, h⟩ (by simp)
  · exact ⟨⟨own, h⟩, rfl⟩

/-- A creation keeps the invariant, and no space loses a thread. -/
theorem wp_createThread_mem (h : s.mem.Inv) (hp : (s.tcb p).space = none) :
    wp (fun _ => True) (createThread p args)
      (fun _ t => t.mem.Inv ∧ ∃ o, t.mem.spaceOf = Function.update s.mem.spaceOf p o) s := by
  have htail : ∀ t : KState, t.mem = s.mem → wp (fun _ => True) (do
      let space ← newThreadSpace args
      setSpace p space
      addTcb space
      if !args.pagerTid.isNilthread then startThread p args.pagerTid)
      (fun _ t => t.mem.Inv ∧ ∃ o, t.mem.spaceOf = Function.update s.mem.spaceOf p o) t := by
    intro t ht
    rw [← ht] at h ⊢
    obtain ⟨own, h⟩ := h
    have hd : t.mem.spaceOf p = none := by rw [ht]; exact hp
    rw [wp_bind, newThreadSpace, wp_ite]
    split
    · rw [wp_bind, wp_readTcb, wp_pure]
      refine wp_mono (wp_addThread_mem fun sp hsp => ?_) fun _ t' ht' => ⟨ht'.1, _, ht'.2⟩
      cases sp with
      | idle => exact absurd hsp (h.idle _)
      | heap addr => exact ⟨own, addr, rfl, h.join hsp hd⟩
    · rw [wp_bind]
      refine wp_allocateSpace fun addr kmem halloc => ?_
      rw [wp_pure]
      refine wp_mono (wp_addThread_mem fun sp hsp => ?_) fun _ t' ht' => ⟨ht'.1, _, ht'.2⟩
      cases hsp
      refine ⟨assign own (Kmem.chunks addr sizeofSpace) (.space addr), addr, rfl, ?_⟩
      simp only [Function.update_self, Function.update_idem]
      exact h.alloc halloc hd rfl rfl
  rw [createThread, wp_bind, createInactive, wp_bind, wp_init, wp_modTcb, wp_ite]
  have hmem : ∀ c : Tcb, c.space = none →
      ({ s with tcb := Function.update s.tcb p c } : KState).mem = s.mem := by
    intro c hc
    simp only [KState.mem, Mem.mk.injEq, and_true]
    funext q
    rcases eq_or_ne q p with rfl | hq
    · simp [hc, hp]
    · simp [hq]
  simp only [Function.update_self, Function.update_idem]
  split
  · rw [setUtcbLocation, wp_bind, wp_modTcb]
    simp only [Function.update_self, Function.update_idem]
    exact htail _ (hmem _ rfl)
  · exact htail _ (hmem _ rfl)

/-! ### Deletion -/

/-- All spaces, and kernel memory. -/
def KState.heap (s : KState) : (SpacePtr → Space) × Kmem := (s.space, s.kmem)

@[grind ←] theorem KeepsIdent.heap (h : KeepsIdent x) : Keeps KState.heap x :=
  h.comp fun i : Ident => (i.space, i.kmem)

@[grind ←] theorem keeps_heap_modTcb {f : Tcb → Tcb} : Keeps KState.heap (modTcb p f) :=
  .modify fun _ => rfl

theorem deleteTcb_mem {u : Unit} (h : deleteTcb p s = .ok (u, t)) :
    t.mem = ⟨Function.update s.mem.spaceOf p none, s.space, s.kmem⟩ := by
  have hheap : Keeps KState.heap (deleteTcb p) := by
    unfold deleteTcb
    repeat' first | with_reducible refine Keeps.bind ?_ fun _ => ?_ | split
    all_goals grind
  have hrest := hheap s u t h
  simp only [KState.heap, Prod.mk.injEq] at hrest
  have hself := congrArg TcbIdent.space (wp_iff_ok.mp wp_deleteTcb u t h)
  have hothers := keepsOthers_deleteTcb s u t h
  simp only [KState.mem, Mem.mk.injEq, hrest, and_true]
  funext q
  rcases eq_or_ne q p with rfl | hq
  · rw [Function.update_self]
    exact hself
  · rw [Function.update_of_ne hq]
    exact congrArg TcbIdent.space (congrFun hothers ⟨q, hq⟩)

/-- The end of a deletion of the thread in `p`, which belonged to the space at `a`. -/
theorem wp_leaveSpace_mem (hinv : s.mem.Inv) (hp : (s.tcb p).space = some (.heap a))
    (ht : t.mem = ⟨Function.update s.mem.spaceOf p none, s.space, s.kmem⟩) :
    wp (fun _ => True) (do
      if ← removeTcb (some (.heap a)) then
        let sp ← derefSpace (some (.heap a))
        unmapSpace sp
        freeSpace sp
      pure true)
      (fun _ t' => t'.mem.Inv ∧ t'.mem.spaceOf = t.mem.spaceOf ∧
        ((∀ q, (t'.tcb q).space ≠ some (.heap a)) → t'.Freed a)) t := by
  obtain ⟨own, hinv⟩ := hinv
  simp only [KState.mem, Mem.mk.injEq] at ht
  obtain ⟨hT, hS, hk⟩ := ht
  have hiff := hinv.count_eq_one_iff hp
  have hleave := hinv.leave hp
  simp only [removeTcb, derefSpace, unmapSpace, freeSpace, wp_bind, wp_pure, wp_modSpace, wp_gets,
    wp_ite, wp_modKmem, Function.update_self, hS, beq_iff_eq]
  have hT' : (fun q => (t.tcb q).space) = Function.update s.mem.spaceOf p none := hT
  split
  · rename_i hzero
    have hlast := hiff.mp hzero
    have hf : (s.space (.heap a)).utcbFrames.Sublist (s.space (.heap a)).utcbPages :=
      List.filter_sublist
    have hperm := (@Kmem.free_perm _ a sizeofSpace (by decide)).trans
      ((freeFrames_perm (s.space (.heap a)).utcbFrames s.kmem).append_left _)
    rw [← List.append_assoc] at hperm
    refine ⟨⟨clear own (Kmem.chunks a sizeofSpace ++ (s.space (.heap a)).utcbFrames.flatMap
      fun m => Kmem.chunks m.2 pageSize), ?_⟩, rfl, fun _ ch hch => ?_⟩
    · simp only [KState.mem, hk]
      rw [hT']
      exact hleave.release hlast (hinv.nodup_chunks hp hf)
        (fun ch hch => hinv.owned_chunks hp hf hch) hperm fun b hb => by simp [hb, KState.mem]
    · simp only [hk]
      exact hperm.mem_iff.mpr (List.mem_append_left _ (List.mem_append_left _ hch))
  · rename_i hzero
    refine ⟨⟨own, ?_⟩, rfl, fun hlast => ?_⟩
    · simp only [KState.mem, hk]
      rw [hT']
      exact hleave
    · refine absurd (hiff.mpr fun q hq => hlast q ?_) hzero
      rw [← hT'] at hq
      exact hq

theorem wp_threadDelete_mem (hinv : s.mem.Inv) {i : Fin (2 ^ validThreadnoBits)} :
    wp (fun _ => True) (threadDelete (.t i)) (fun _ t => t.mem.Inv ∧
      ∀ addr, s.Live addr → ¬t.Live addr → t.Freed addr) s := by
  have hsame : ∀ t : KState, t.mem = s.mem → t.mem.Inv ∧
      ∀ addr, s.Live addr → ¬t.Live addr → t.Freed addr := by
    intro t ht
    refine ⟨ht ▸ hinv, fun addr hlive hdead => ?_⟩
    obtain ⟨q, hq⟩ := hlive
    refine absurd ⟨q, ?_⟩ hdead
    rw [← hq]
    exact congrFun (congrArg Mem.spaceOf ht) q
  rw [threadDelete, wp_bind, wp_getCurrentTcb, wp_ite]
  split
  · exact keepsIdent_failWith.mem.wp fun _ t ht => hsame t ht
  · rw [wp_bind, wp_readTcb, wp_ite]
    split
    · rename_i hex
      obtain ⟨sp, hsp⟩ := Option.isSome_iff_exists.mp hex
      cases sp with
      | idle =>
        obtain ⟨own, h⟩ := hinv
        exact absurd hsp (h.idle i)
      | heap a =>
        rw [wp_bind, wp_iff_ok, hsp]
        intro u t ht
        have hmem := deleteTcb_mem ht
        refine wp_mono (wp_leaveSpace_mem hinv hsp hmem) fun _ t' hpost => ?_
        obtain ⟨hinv', hT, hfreed⟩ := hpost
        refine ⟨hinv', fun addr hlive hdead => ?_⟩
        obtain ⟨q, hq⟩ := hlive
        have hTq : ∀ q, (t'.tcb q).space = Function.update s.mem.spaceOf (.t i) none q := by
          intro q
          rw [hmem] at hT
          exact congrFun hT q
        rcases eq_or_ne q (.t i) with rfl | hqi
        · rw [hsp] at hq
          cases hq
          exact hfreed fun q' hq' => hdead ⟨q', hq'⟩
        · refine absurd ⟨q, ?_⟩ hdead
          rw [hTq, Function.update_of_ne hqi]
          exact hq
    · exact hsame s rfl

/-! ### Modification and interrupts -/

@[grind ←] theorem keepsMem_setGlobalId : KeepsMem (setGlobalId p tid) :=
  .bind (keepsMem_modTcb fun _ => rfl) fun _ => keepsIdent_modUtcb.mem

variable {i : Fin (2 ^ validThreadnoBits)}

theorem wp_modifyPager_mem (hinv : s.mem.Inv) :
    wp (fun _ => True) (modifyPager (.t i) args)
      (fun _ t => t.mem.Inv ∧ t.mem.spaceOf = s.mem.spaceOf) s := by
  rw [modifyPager, wp_ite]
  split
  · exact ⟨hinv, rfl⟩
  · rw [wp_bind, wp_readTcb, wp_ite]
    split
    · rw [wp_bind, setPager]
      refine keepsIdent_modUtcb.mem.wp fun _ t ht => ?_
      rw [wp_pure, ht]
      exact ⟨hinv, rfl⟩
    · rw [wp_bind, wp_checkUtcbLocation]
      refine ⟨fun _ => trivial, fun sp hsp => ?_⟩
      split
      · cases sp with
        | idle =>
          obtain ⟨own, h⟩ := hinv
          exact absurd hsp (h.idle i)
        | heap a =>
          rw [wp_bind]
          exact wp_startThread_mem hinv hsp
      · exact ⟨hinv, rfl⟩

theorem wp_modifySettings_mem (hinv : s.mem.Inv) :
    wp (fun _ => True) (modifySettings (.t i) args)
      (fun _ t => t.mem.Inv ∧ t.mem.spaceOf = s.mem.spaceOf) s := by
  rw [modifySettings, wp_bind]
  refine wp_mono (wp_modifyPager_mem hinv) fun o t ht => ?_
  refine Keeps.wp (f := KState.mem) ?_ fun _ t' ht' => ?_
  · repeat' first | with_reducible refine Keeps.bind ?_ fun _ => ?_ | split
    all_goals grind
  · rw [ht']
    exact ht

/-- A modification that does not migrate; `t` is the state with the new location stored. -/
theorem wp_modifyThread_mem (hinv : s.mem.Inv) (ht : t.mem = s.mem)
    (hact : (t.tcb (getTcb args.destTid)).isActivated = (s.tcb (getTcb args.destTid)).isActivated)
    (hstay : (s.tcb (getTcb args.destTid)).isActivated →
      (s.tcb (getTcb args.destTid)).space = (s.tcb (getTcb args.spaceTid)).space) :
    wp (fun _ => True) (modifyThread (getTcb args.destTid) args (s.tcb (getTcb args.spaceTid)).space)
      (fun _ t => t.mem.Inv ∧ t.mem.spaceOf = s.mem.spaceOf) t := by
  have hspace : (t.tcb (getTcb args.destTid)).space = (s.tcb (getTcb args.destTid)).space :=
    congrFun (congrArg Mem.spaceOf ht) _
  rw [modifyThread, wp_bind, wp_readTcb, wp_ite]
  split
  · rename_i hne
    rw [wp_bind]
    refine wp_mono wp_migrateToSpace_pre fun _ _ hpost => ?_
    obtain ⟨h, _⟩ := hpost
    rw [hact] at h
    exact absurd (hspace.trans (hstay h)) hne
  · rw [← ht]
    exact wp_modifySettings_mem (ht ▸ hinv)

/-- The location of a modification. -/
theorem KState.withLocation_mem {loc : Word} : (s.withLocation p loc).mem = s.mem := by
  simp only [KState.mem, Mem.mk.injEq]
  exact ⟨funext fun q => KState.withLocation_space loc, rfl, rfl⟩

/-- A modification that does not migrate. -/
theorem wp_threadModify_mem (hinv : s.mem.Inv) (hacc : s.Accepts args)
    (hnil : args.spaceTid.isNilthread = false) (hex : (s.tcb (getTcb args.destTid)).isExisting)
    (hstay : s.Modifies args →
      (s.tcb (getTcb args.destTid)).space = (s.tcb (getTcb args.spaceTid)).space) :
    wp (fun _ => True) (threadModify (getTcb args.destTid) args)
      (fun _ t => t.mem.Inv ∧ t.mem.spaceOf = s.mem.spaceOf) s := by
  have hfail : ∀ (t : KState) err, t.mem = s.mem → wp (fun _ => True) (failWith err)
      (fun _ t => t.mem.Inv ∧ t.mem.spaceOf = s.mem.spaceOf) t := by
    intro t err ht
    refine keepsIdent_failWith.mem.wp fun _ t' ht' => ?_
    rw [ht', ht]
    exact ⟨hinv, rfl⟩
  rw [threadModify, wp_bind, wp_modifyUtcbLocation]
  split
  · rename_i hloc
    rw [if_pos rfl, wp_bind, wp_readTcb, wp_ite]
    split
    · exact hfail s _ rfl
    · rename_i hid
      refine wp_modifyThread_mem hinv rfl rfl fun hact => hstay ?_
      exact ⟨hacc, hnil, hex, .inl hloc, by simpa using hid, .inr (.inl hact)⟩
  · split
    · exact hfail s _ rfl
    · rename_i hinactive
      refine ⟨fun _ => trivial, fun sp hsp => ?_⟩
      split
      · rw [if_pos rfl, wp_bind, wp_readTcb, wp_ite]
        split
        · exact hfail _ _ KState.withLocation_mem
        · rw [KState.withLocation_space]
          refine wp_modifyThread_mem hinv KState.withLocation_mem ?_ fun hact => ?_
          · rw [Tcb.isActivated, KState.withLocation_utcb, Tcb.isActivated]
          · exact absurd hact hinactive
      · exact hfail s _ rfl

/-- Attaching an interrupt does not touch a space, unless an inactive thread is in the way. -/
theorem wp_threadControlInterrupt_mem {handlerTid : ThreadId}
    (h : tid.isInterrupt → isIrqAvailable tid.getIrqno → (s.tcb (getTcb tid)).isActivated = false →
      (s.tcb (getTcb tid)).isExisting = false) :
    wp (fun _ => True) (threadControlInterrupt tid handlerTid) (fun _ t => t.mem = s.mem) s := by
  unfold threadControlInterrupt
  dsimp only
  rw [wp_ite]
  split
  · rfl
  · rename_i hirq
    have hirq : tid.isInterrupt ∧ isIrqAvailable tid.getIrqno := by simpa using hirq
    rw [wp_bind, wp_readTcb, wp_ite]
    split
    · rfl
    · rw [wp_ite]
      split
      · rename_i hact
        have hnone : (s.tcb (getTcb tid)).space = none := by
          have := h hirq.1 hirq.2 (by simpa using hact)
          simpa [Tcb.isExisting] using this
        have hmem : ∀ c : Tcb, c.space = none →
            (fun q => (Function.update s.tcb (getTcb tid) c q).space) = s.mem.spaceOf := by
          intro c hc
          rw [KState.spaceOf_update, hc, ← hnone]
          exact Function.update_eq_self _ _
        simp only [createKernelThread, setPriority, notify, pushFrame, setScheduler, setIntMask,
          setState, wp_bind, wp_init, wp_modTcb, wp_ite, wp_modify, wp_pure, Function.update_self,
          Function.update_idem]
        split <;> simp only [KState.mem, Mem.mk.injEq, and_true] <;> exact hmem _ rfl
      · refine Keeps.wp ?_ fun _ t ht => ht
        repeat' first | with_reducible refine Keeps.bind ?_ fun _ => ?_ | split
        all_goals grind

/-! ## Runs -/

/-- The calls that keep spaces and their threads together: no migration, and no interrupt attached
to a TCB that holds an inactive thread of a space. -/
structure SpaceSafe (s : KState) (a : ThreadControlArgs) : Prop where
  stay : s.Modifies a → (s.tcb (getTcb a.destTid)).space = (s.tcb (getTcb a.spaceTid)).space
  attach : s.Attaches a → (s.tcb (getTcb a.destTid)).isActivated = false →
    (s.tcb (getTcb a.destTid)).isExisting = false

/-- The steps in question. -/
def SpaceSteps (s : KState) : Event → Prop
  | .threadControl a => SpaceSafe s a
  | _ => True

/-- A call in question keeps the invariant, and frees the spaces it leaves without a thread. -/
theorem wp_sysThreadControl_mem (hinv : s.mem.Inv) (hsafe : SpaceSafe s args) :
    wp (fun _ => True) (sysThreadControl args) (fun _ t => t.mem.Inv ∧
      ∀ addr, s.Live addr → ¬t.Live addr → t.Freed addr) s := by
  have hsame : ∀ t : KState, t.mem.Inv → t.mem.spaceOf = s.mem.spaceOf → t.mem.Inv ∧
      ∀ addr, s.Live addr → ¬t.Live addr → t.Freed addr := by
    intro t ht hT
    refine ⟨ht, fun addr hlive hdead => ?_⟩
    obtain ⟨q, hq⟩ := hlive
    refine absurd ⟨q, ?_⟩ hdead
    rw [← hq]
    exact congrFun hT q
  have hfail : ∀ (t : KState) err, t.mem = s.mem → wp (fun _ => True) (failWith err)
      (fun _ t => t.mem.Inv ∧ ∀ addr, s.Live addr → ¬t.Live addr → t.Freed addr) t := by
    intro t err ht
    refine keepsIdent_failWith.mem.wp fun _ t' ht' => ?_
    rw [ht] at ht'
    exact hsame t' (ht' ▸ hinv) (congrArg Mem.spaceOf ht')
  rw [wp_sysThreadControl]
  split
  · exact hfail s _ rfl
  · rename_i hpriv
    split
    · exact hfail s _ rfl
    · split
      · refine wp_mono (wp_threadControlInterrupt_mem fun h1 h2 h3 =>
          hsafe.attach ⟨by simpa using hpriv, h1, h2, by simp [h3]⟩ h3) fun r t ht => ?_
        split
        · exact hsame t (ht ▸ hinv) (congrArg Mem.spaceOf ht)
        · exact hfail t _ ht
      · split
        · exact hfail s _ rfl
        · have hacc : s.Accepts args := ⟨by simp_all, by simp_all, by simp_all⟩
          split
          · exact wp_threadDelete_mem hinv
          · split
            · refine wp_mono (wp_threadModify_mem hinv hacc (by simp_all) ‹_› hsafe.stay)
                fun _ t ht => hsame t ht.1 ht.2
            · rename_i hex
              have hex : (s.tcb (getTcb args.destTid)).isExisting = false := by simpa using hex
              have hnone : (s.tcb (getTcb args.destTid)).space = none := by
                simpa [Tcb.isExisting] using hex
              rw [threadCreate, wp_bind]
              refine wp_mono (wp_createCheck_creates hacc (by simp_all) hex) fun o t hpost => ?_
              obtain ⟨ht, _⟩ := hpost
              subst ht
              cases o with
              | some err => exact hfail t err rfl
              | none =>
                change wp _ (createThread _ args >>= fun _ => pure true) _ _
                rw [wp_bind]
                refine wp_mono (wp_createThread_mem hinv hnone) fun _ t' hpost => ?_
                obtain ⟨hinv', sp, hT⟩ := hpost
                refine ⟨hinv', fun addr hlive hdead => ?_⟩
                obtain ⟨q, hq⟩ := hlive
                refine absurd ⟨q, ?_⟩ hdead
                have hqd : q ≠ getTcb args.destTid := by
                  rintro rfl
                  rw [hnone] at hq
                  cases hq
                have := congrFun hT q
                rw [Function.update_of_ne hqd] at this
                exact this.trans hq

theorem wp_sysSpaceControl_mem {b : SpaceControlArgs} (hinv : s.mem.Inv) :
    wp (fun _ => True) (sysSpaceControl b)
      (fun _ t => t.mem.Inv ∧ t.mem.spaceOf = s.mem.spaceOf) s := by
  have hfail : ∀ err, wp (fun _ => True) (failWith err)
      (fun _ t => t.mem.Inv ∧ t.mem.spaceOf = s.mem.spaceOf) s := by
    intro err
    refine keepsIdent_failWith.mem.wp fun _ t ht => ?_
    rw [ht]
    exact ⟨hinv, rfl⟩
  rw [wp_sysSpaceControl]
  split
  · exact hfail _
  · split
    · exact hfail _
    · split
      · exact hfail _
      · refine ⟨fun _ => trivial, fun sp hsp => ?_⟩
        split_ifs
        · exact ⟨hinv, rfl⟩
        · exact hfail _
        · exact hfail _
        · refine ⟨hinv.imp fun own h => h.congr fun sp' => ?_, rfl⟩
          rcases eq_or_ne sp' sp with rfl | hne
          · simp [KState.mem]
          · simp [KState.mem, hne]

/-- A step in question keeps the invariant, and frees the spaces it leaves without a thread. -/
theorem KState.Step.mem {e : Event} (h : s.Step e t) (hinv : s.mem.Inv) (hok : SpaceSteps s e) :
    t.mem.Inv ∧ ∀ addr, s.Live addr → ¬t.Live addr → t.Freed addr := by
  have hsame : t.mem.Inv → t.mem.spaceOf = s.mem.spaceOf → t.mem.Inv ∧
      ∀ addr, s.Live addr → ¬t.Live addr → t.Freed addr := by
    intro ht hT
    refine ⟨ht, fun addr ⟨q, hq⟩ hdead => absurd ⟨q, ?_⟩ hdead⟩
    rw [← hq]
    exact congrFun hT q
  have hrun := (KState.step_iff.mp h).2
  cases e with
  | threadControl a =>
    obtain ⟨r, u, hr, hu⟩ := bind_eq_ok.mp hrun
    cases hu
    exact wp_iff_ok.mp (wp_sysThreadControl_mem hinv hok) r t hr
  | spaceControl b =>
    obtain ⟨r, u, hr, hu⟩ := bind_eq_ok.mp hrun
    cases hu
    obtain ⟨h1, h2⟩ := wp_iff_ok.mp (wp_sysSpaceControl_mem hinv) r t hr
    exact hsame h1 h2
  | _ =>
    have hmem : t.mem = s.mem := by
      have hi := h.ident rfl
      simp only [KState.ident, Ident.mk.injEq] at hi
      simp only [KState.mem, Mem.mk.injEq]
      exact ⟨congrArg (fun f : TcbPtr → TcbIdent => fun p => (f p).space) hi.1, hi.2.1, hi.2.2.1⟩
    exact hsame (hmem ▸ hinv) (congrArg Mem.spaceOf hmem)

/-- Every space with threads counts them and is not free. -/
def KState.SpacesCounted (s : KState) : Prop :=
  ∀ addr, s.Live addr →
    (s.space (.heap addr)).threadCount.toNat = { p | (s.tcb p).space = some (.heap addr) }.ncard ∧
      ∀ c ∈ Kmem.chunks addr sizeofSpace, c ∉ s.kmem.freeList

theorem Mem.Inv.counted (h : s.mem.Inv) : s.SpacesCounted := by
  obtain ⟨own, h⟩ := h
  rintro addr ⟨p, hp⟩
  exact ⟨h.count hp, fun c hc => h.free.notMem (h.space hp hc)⟩

/-! ### The boot -/

/-- The invariant while the root servers are created: those after `tids` have no space yet. -/
structure BootMem (tids : List ThreadId) (s : KState) : Prop where
  inv : s.mem.Inv
  absent {tid : ThreadId} : tid ∈ rootTids → tid ∉ tids → (s.tcb (getTcb tid)).space = none

section Boot

variable {cfg : BootConfig} {tids : List ThreadId} {pager : ThreadId}

theorem BootMem.create (h : BootMem tids s) (htid : tid ∈ rootTids) (hnot : tid ∉ tids) :
    wp (fun _ => True) (createRootServer tid rootServerTid pager cfg)
      (fun _ t => BootMem (tid :: tids) t) s := by
  have hothers : wp (fun _ => True) (createRootServer tid rootServerTid pager cfg)
      (fun _ t => ∀ q ≠ getTcb tid, t.tcbIdent q = s.tcbIdent q) s :=
    keepsOthers_createRootServer.wp fun _ t ht q hq => congrFun ht ⟨q, hq⟩
  have hinv : wp (fun _ => True) (createRootServer tid rootServerTid pager cfg)
      (fun _ t => t.mem.Inv) s := by
    obtain ⟨own, hown⟩ := h.inv
    rw [createRootServer, wp_bind]
    refine wp_allocateSpace fun addr kmem halloc => ?_
    have hnew := hown.alloc (c := ⟨rootKipArea, rootUtcbArea, 0 + 1, []⟩) halloc
      (h.absent htid hnot) rfl rfl
    simp only [createInactive, initSpace, setSpace, addTcb, setUtcbLocation, wp_bind, wp_init,
      wp_modTcb, wp_modSpace, wp_derefSpace, Function.update_self, Function.update_idem]
    refine ⟨fun _ => trivial, fun sp hsp => ?_⟩
    obtain rfl := Option.some.inj hsp
    refine wp_mono (wp_activate_mem (a := addr)
      ⟨assign own (Kmem.chunks addr sizeofSpace) (.space addr), ?_⟩ (by simp)) fun _ t1 ⟨ht1, _⟩ => ?_
    · simp only [KState.mem, KState.spaceOf_update, Function.update_self, Function.update_idem]
      exact hnew
    · refine keepsIdent_startRootServer.mem.wp fun _ t2 ht2 => ?_
      rw [wp_pure, ht2]
      exact ht1
  rw [wp_iff_ok] at hothers hinv ⊢
  intro sp t ht
  refine ⟨hinv sp t ht, fun {tid'} htid' hnot' => ?_⟩
  obtain ⟨hne, hnot'⟩ := List.mem_cons.not.mp hnot' |> not_or.mp
  have hid := hothers sp t ht _ (getTcb_rootTids_injective htid' htid hne)
  exact (congrArg TcbIdent.space hid).trans (h.absent htid' hnot')

/-- The invariant holds when no thread but the idle thread has a space. -/
theorem BootMem.of_idle (hfree : s.kmem.freeList.Nodup)
    (hnone : ∀ i, (s.tcb (.t i)).space = none) (hidle : (s.tcb .idle).space = some .idle) :
    BootMem [] s := by
  have hvac : ∀ {q : TcbPtr} {addr : Nat}, s.mem.spaceOf q ≠ some (.heap addr) := by
    intro q addr
    cases q with
    | idle => simp [KState.mem, hidle]
    | t i => simp [KState.mem, hnone]
  exact ⟨⟨fun _ => none, ⟨hfree, fun _ _ => rfl⟩, fun i => by simp [KState.mem, hnone],
    fun hq => absurd hq hvac, fun hq => absurd hq hvac, fun hq => absurd hq hvac,
    fun hq => absurd hq hvac⟩, fun _ _ => hnone _⟩

/-- The kernel space and the dummy TCB are taken from the free memory. -/
theorem wp_initKernelSpace_mem (hfree : s.kmem.freeList.Nodup) (hzero : s.space = fun _ => .zero) :
    wp (fun _ => True) initKernelSpace
      (fun _ t => t.kmem.freeList.Nodup ∧ t.tcb = s.tcb ∧ t.space = fun _ => .zero) s := by
  rw [initKernelSpace, wp_bind]
  refine wp_allocateSpace fun addr kmem halloc => ?_
  obtain ⟨-, hperm⟩ := Kmem.alloc_perm halloc (by decide)
  have hfree' := (List.nodup_append.mp (hperm.nodup_iff.mp hfree)).2.1
  rw [wp_bind, wp_gets]
  split
  · trivial
  · rename_i page kmem' halloc'
    obtain ⟨-, hperm'⟩ := Kmem.alloc_perm halloc' (by decide)
    rw [wp_modKmem]
    refine ⟨(List.nodup_append.mp (hperm'.nodup_iff.mp hfree')).2.1, rfl, ?_⟩
    rw [hzero]
    exact Function.update_eq_self _ _

/-- The rule for the memory in a boot: before the root servers are created only the idle thread has
a space, all spaces are zero and the free list has no duplicates. -/
theorem boot_rule {I : List ThreadId → KState → Prop}
    (hinit : ∀ t : KState, t.kmem.freeList.Nodup → (∀ i, (t.tcb (.t i)).space = none) →
      (t.tcb .idle).space = some .idle → t.space = (fun _ => .zero) → I [] t)
    (hcreate : ∀ tids tid pager s, tid ∈ rootTids → tid ∉ tids → I tids s →
      wp (fun _ => True) (createRootServer tid rootServerTid pager cfg)
        (fun _ t => I (tid :: tids) t) s)
    (hspaces : ∀ tids s sp0 sp1 sp2, I tids s →
      I tids { s with sigma0Space := sp0, sigma1Space := sp1, roottaskSpace := sp2 })
    (h : boot cfg (KState.zero cfg) = .ok ((), s)) : ∃ tids, I tids s := by
  have hnodup : (KState.zero cfg).kmem.freeList.Nodup := by
    simp only [KState.zero, Kmem.free, List.takeWhile_nil, List.dropWhile_nil, List.nil_append,
      List.append_nil]
    exact Kmem.chunks_nodup
  suffices wp (fun _ => True) (boot cfg) (fun _ t => ∃ tids, I tids t) (KState.zero cfg) from
    wp_iff_ok.mp this () s h
  rw [boot, wp_bind]
  refine wp_mono (wp_initKernelSpace_mem hnodup rfl) fun _ t1 hpost => ?_
  obtain ⟨hnodup, htcb, hzero⟩ := hpost
  simp only [Kernel.initScheduler, Kernel.initKernelThreads, createKernelThread, setPriority,
    setState, setSpace, wp_bind, wp_init, wp_modTcb, Function.update_self, Function.update_idem]
  refine wp_mono (wp_initRootServers (fun tids tid pager s htid hnot _ => hcreate _ _ _ _ htid hnot)
    hspaces (hinit _ hnodup ?_ ?_ hzero)) fun _ t hpost => hpost.imp fun _ ht => ht.1
  · intro i
    rcases eq_or_ne (TcbPtr.t i) (getTcb kernelTid) with hi | hi
    · simp [hi, Tcb.init]
    · simp [hi, htcb, KState.zero, Tcb.zero]
  · simp [getTcb]

/-- After the boot the invariant holds. -/
theorem Mem.inv_boot (h : boot cfg (KState.zero cfg) = .ok ((), s)) : s.mem.Inv := by
  obtain ⟨tids, hs⟩ := boot_rule (I := BootMem) (fun t hfree hnone hidle _ => .of_idle hfree hnone hidle)
    (fun _ _ _ _ htid hnot hs => hs.create htid hnot) (fun _ _ _ _ _ hs => ⟨hs.inv, hs.absent⟩) h
  exact hs.inv

end Boot

/-! ### All runs -/

/-- Of the spaces in use, the step frees those that are left without a thread. -/
def KState.FreesEmpty (s t : KState) : Prop :=
  ∀ addr, s.Live addr → (t.Freed addr ↔ ¬t.Live addr)

theorem KState.SpacesCounted.not_freed (h : s.SpacesCounted) {addr : Nat} (hlive : s.Live addr) :
    ¬s.Freed addr := by
  intro hfreed
  have hmem : addr ∈ Kmem.chunks addr sizeofSpace := by
    simp [Kmem.chunks, Kmem.chunkSize, sizeofSpace]
  exact (h addr hlive).2 addr hmem (hfreed addr hmem)

theorem Mem.Inv.reachable (h : Reachable SpaceSteps s) : s.mem.Inv :=
  h.invariant (fun _ ⟨_, hboot⟩ => Mem.inv_boot hboot) fun _ _ _ hI hok hstep => (hstep.mem hI hok).1

theorem spaceSafe_iff : SpaceSafe s args ↔
    (s.Modifies args →
      (s.tcb (getTcb args.destTid)).space = (s.tcb (getTcb args.spaceTid)).space) ∧
    (s.Attaches args → (s.tcb (getTcb args.destTid)).isActivated = false →
      (s.tcb (getTcb args.destTid)).isExisting = false) :=
  ⟨fun h => ⟨h.stay, h.attach⟩, fun h => ⟨h.1, h.2⟩⟩

instance : Decidable (SpaceSafe s args) := decidable_of_iff _ spaceSafe_iff.symm

instance (e : Event) : Decidable (SpaceSteps s e) :=
  KState.decidableThreadControl (SpaceSafe s) e

end L4Thread
