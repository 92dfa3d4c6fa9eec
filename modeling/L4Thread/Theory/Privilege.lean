import L4Thread.Theory.Failure
import L4Thread.Theory.Spaces

/-!
# Privileged spaces

Thread and space control are for the spaces of the servers that the boot creates. The check compares
the caller's space with the spaces of `sigma0` and of the root task, which are never updated. It
fails for `sigma1`, whose space is compared with that of `sigma0`, and it accepts a later space that
got the memory of a boot space. In the runs in which no boot space loses its last thread, that memory
is never free.
-/

namespace L4Thread

open TrapM Kernel

variable {s t : KState} {α : Type} {x : Kernel α} {R : List Nat} {p : TcbPtr} {addr : Nat}
  {a : ThreadControlArgs} {tid : ThreadId}

/-! ## The memory of the boot spaces -/

/-- `c` is a chunk of one of the spaces at `R`. -/
def IsRootChunk (R : List Nat) (c : Nat) : Prop := ∃ r ∈ R, c ∈ Kmem.chunks r sizeofSpace

/-- The memory of the spaces at `R` is neither free, nor a UTCB page, nor part of another space. -/
structure Mem.Protects (R : List Nat) (m : Mem) : Prop where
  free : ∀ c ∈ m.kmem.freeList, ¬IsRootChunk R c
  page : ∀ sp, ∀ u ∈ (m.space sp).utcbPages, ∀ c ∈ Kmem.chunks u.2 pageSize, ¬IsRootChunk R c
  space : ∀ q addr, m.spaceOf q = some (.heap addr) →
    addr ∈ R ∨ ∀ c ∈ Kmem.chunks addr sizeofSpace, ¬IsRootChunk R c

def Protected (R : List Nat) (s : KState) : Prop := s.mem.Protects R

/-- The space may be given to a thread. -/
def IsProtected (R : List Nat) (o : Option SpacePtr) : Prop :=
  ∀ addr, o = some (.heap addr) → addr ∈ R ∨ ∀ c ∈ Kmem.chunks addr sizeofSpace, ¬IsRootChunk R c

@[grind ←] theorem preserves_of_keepsMem (h : KeepsMem x) : Preserves (Protected R) x :=
  @Preserves.of_keeps _ _ _ _ KState.mem (Mem.Protects R) x h

theorem Protected.isProtected (h : Protected R s) (q : TcbPtr) : IsProtected R (s.tcb q).space :=
  fun addr hsp => Mem.Protects.space h q addr hsp

/-- A change of a TCB that gives it no space but a protected one. -/
theorem preserves_modTcb {f : Tcb → Tcb}
    (h : ∀ c, (f c).space = c.space ∨ IsProtected R (f c).space) :
    Preserves (Protected R) (modTcb p f) := by
  refine .modify fun s (hs : s.mem.Protects R) => ⟨hs.free, hs.page, fun q addr hq => ?_⟩
  rcases eq_or_ne q p with rfl | hne
  · simp only [KState.mem, Function.update_self] at hq
    rcases h (s.tcb q) with heq | hprot
    · exact hs.space q addr (heq.symm.trans hq)
    · exact hprot addr hq
  · simp only [KState.mem, Function.update_of_ne hne] at hq
    exact hs.space q addr hq

theorem preserves_setSpace {o : Option SpacePtr} (h : IsProtected R o) :
    Preserves (Protected R) (setSpace p o) :=
  preserves_modTcb fun _ => .inr h

theorem isProtected_none : IsProtected R none := by
  intro addr h
  cases h

@[grind ←] theorem preserves_modSpace {sp : SpacePtr} {f : Space → Space}
    (h : ∀ c, (f c).utcbPages = c.utcbPages ∨ (f c).utcbPages = []) :
    Preserves (Protected R) (modSpace sp f) := by
  refine .modify fun s (hs : s.mem.Protects R) => ⟨hs.free, fun sp' u hu => ?_, hs.space⟩
  rcases eq_or_ne sp' sp with rfl | hne
  · simp only [KState.mem, Function.update_self] at hu
    rcases h (s.space sp') with heq | heq
    · rw [heq] at hu
      exact hs.page sp' u hu
    · simp [heq] at hu
  · simp only [KState.mem, Function.update_of_ne hne] at hu
    exact hs.page sp' u hu

/-! ### Allocation -/

theorem Mem.Protects.sublist {m : Mem} (h : m.Protects R) {k : Kmem}
    (hk : ∀ c ∈ k.freeList, c ∈ m.kmem.freeList) : Mem.Protects R { m with kmem := k } :=
  ⟨fun c hc => h.free c (hk c hc), h.page, h.space⟩

/-- A new space is protected. -/
theorem Protected.allocateSpace (h : Protected R s) {Q : SpacePtr → KState → Prop}
    (hQ : ∀ addr t, s.kmem.alloc sizeofSpace = some (addr, t.kmem) → t.tcb = s.tcb → Protected R t →
      IsProtected R (some (.heap addr)) → Q (.heap addr) t) :
    wp (fun _ => True) allocateSpace Q s := by
  refine wp_allocateSpace fun addr kmem halloc => ?_
  obtain ⟨-, hperm⟩ := Kmem.alloc_perm halloc (by decide)
  refine hQ addr _ halloc rfl ⟨fun c hc => ?_, fun sp u hu => ?_, h.space⟩ fun addr' heq => .inr ?_
  · exact h.free c (hperm.mem_iff.mpr (List.mem_append_right _ hc))
  · rcases eq_or_ne sp (.heap addr) with rfl | hne
    · simp [KState.mem, Space.zero] at hu
    · simp only [KState.mem, Function.update_of_ne hne] at hu
      exact h.page sp u hu
  · cases heq
    exact fun c hc => h.free c (hperm.mem_iff.mpr (List.mem_append_left _ hc))

/-- UTCB pages are taken from the free memory. -/
@[grind ←] theorem preserves_allocateUtcb {o : Option SpacePtr} {loc : Word} :
    Preserves (Protected R) (allocateUtcb o loc) := by
  intro s u t hs ht
  have hs : s.mem.Protects R := hs
  suffices wp (fun _ => True) (allocateUtcb o loc) (fun _ t => Protected R t) s from
    wp_iff_ok.mp this u t ht
  simp only [allocateUtcb, wp_bind, wp_derefSpace, wp_gets]
  refine ⟨fun _ => trivial, fun sp hsp => ?_⟩
  split
  · exact hs
  · rw [wp_bind, wp_gets]
    split
    · trivial
    · rename_i page kmem halloc
      have hperm := Kmem.allocAligned_perm halloc (by decide)
      simp only [wp_bind, wp_modKmem, zeroUtcbPage, wp_modify, wp_modSpace, wp_pure]
      refine ⟨fun c hc => ?_, fun sp' u hu => ?_, hs.space⟩
      · exact hs.free c (hperm.mem_iff.mpr (List.mem_append_right _ hc))
      · rcases eq_or_ne sp' sp with rfl | hne
        · simp only [KState.mem, Function.update_self, List.mem_cons] at hu
          rcases hu with rfl | hu
          · exact fun c hc => hs.free c (hperm.mem_iff.mpr (List.mem_append_left _ hc))
          · exact hs.page sp' u hu
        · simp only [KState.mem, Function.update_of_ne hne] at hu
          exact hs.page sp' u hu

@[grind ←] theorem preserves_startThread {pager : ThreadId} :
    Preserves (Protected R) (startThread p pager) := by
  unfold startThread activate setGlobalId setPager createStartupStack
  repeat' with_reducible refine Preserves.bind ?_ fun _ => ?_
  all_goals grind

/-! ### Release -/

/-- The space at `sp` may be freed. -/
def IsFreeable (R : List Nat) : SpacePtr → Prop
  | .heap addr => ∀ c ∈ Kmem.chunks addr sizeofSpace, ¬IsRootChunk R c
  | .idle => True

@[grind ←] theorem preserves_unmapSpace {sp : SpacePtr} :
    Preserves (Protected R) (unmapSpace sp) := by
  intro s u t hs ht
  have hs : s.mem.Protects R := hs
  suffices wp (fun _ => True) (unmapSpace sp) (fun _ t => Protected R t) s from
    wp_iff_ok.mp this u t ht
  simp only [unmapSpace, wp_bind, wp_gets, wp_modKmem, wp_modSpace]
  refine ⟨fun c hc => ?_, fun sp' u hu => ?_, hs.space⟩
  · have hperm := freeFrames_perm (s.space sp).utcbFrames s.kmem
    rcases List.mem_append.mp (hperm.mem_iff.mp hc) with hc | hc
    · obtain ⟨m, hm, hc⟩ := List.mem_flatMap.mp hc
      exact hs.page sp m (List.mem_of_mem_filter hm) c hc
    · exact hs.free c hc
  · rcases eq_or_ne sp' sp with rfl | hne
    · simp [KState.mem] at hu
    · simp only [KState.mem, Function.update_of_ne hne] at hu
      exact hs.page sp' u hu

theorem preserves_freeSpace {sp : SpacePtr} (h : IsFreeable R sp) :
    Preserves (Protected R) (freeSpace sp) := by
  cases sp with
  | idle => exact .pure ()
  | heap addr =>
    refine .modify fun s (hs : s.mem.Protects R) => ⟨fun c hc => ?_, hs.page, hs.space⟩
    have hperm := @Kmem.free_perm s.kmem addr sizeofSpace (by decide)
    rcases List.mem_append.mp (hperm.mem_iff.mp hc) with hc | hc
    · exact h c hc
    · exact hs.free c hc

/-- A boot space that counts more than one thread is not freed. -/
theorem wp_removeTcb (h : Protected R s) {o : Option SpacePtr} (ho : IsProtected R o)
    (hcount : ∀ r ∈ R, o = some (.heap r) → (s.space (.heap r)).threadCount ≠ 1) :
    wp (fun _ => True) (removeTcb o)
      (fun b t => Protected R t ∧ t.tcb = s.tcb ∧
        (b = true → ∃ sp, o = some sp ∧ IsFreeable R sp)) s := by
  simp only [removeTcb, wp_bind, wp_derefSpace, wp_modSpace, wp_gets, wp_pure,
    Function.update_self, beq_iff_eq]
  refine ⟨fun _ => trivial, fun sp hsp => ⟨?_, trivial, fun hzero => ⟨sp, hsp, ?_⟩⟩⟩
  · exact preserves_modSpace (f := fun c => { c with threadCount := c.threadCount - 1 })
      (fun _ => .inl rfl) s () _ h rfl
  · cases sp with
    | idle => trivial
    | heap addr =>
      refine (ho addr hsp).resolve_left fun hr => hcount addr hr hsp ?_
      bv_omega

/-- A call does not take the last thread that a boot space counts. -/
def KeepsRoots (R : List Nat) (s : KState) (p : TcbPtr) : Prop :=
  ∀ r ∈ R, (s.tcb p).space = some (.heap r) → (s.space (.heap r)).threadCount ≠ 1

theorem wp_threadDelete_protected (h : Protected R s)
    (hroots : getTcb tid ≠ s.currentTcb → (s.tcb (getTcb tid)).isExisting →
      KeepsRoots R s (getTcb tid)) :
    wp (fun _ => True) (threadDelete (getTcb tid)) (fun _ t => Protected R t) s := by
  rw [threadDelete, wp_bind, wp_getCurrentTcb, wp_ite]
  split
  · exact keepsIdent_failWith.mem.wp fun _ t ht => by rwa [Protected, ht]
  · rename_i hne
    rw [wp_bind, wp_readTcb, wp_ite]
    split
    · rename_i hex
      have hroots := hroots hne hex
      rw [wp_bind, wp_iff_ok]
      intro u t ht
      have hmem := deleteTcb_mem ht
      have ht' : Protected R t := by
        rw [Protected, hmem]
        refine ⟨h.free, h.page, fun q addr hq => ?_⟩
        rcases eq_or_ne q (getTcb tid) with rfl | hq'
        · simp at hq
        · simp only [Function.update_of_ne hq'] at hq
          exact h.space q addr hq
      have hspace : t.space = s.space := congrArg Mem.space hmem
      rw [wp_bind]
      refine wp_mono (wp_removeTcb ht' (h.isProtected _) fun r hr hsp => ?_)
        fun b t1 hpost => ?_
      · rw [hspace]
        exact hroots r hr hsp
      · obtain ⟨ht1, _, hfree⟩ := hpost
        cases b with
        | false => exact ht1
        | true =>
          obtain ⟨sp, hsp, hfree⟩ := hfree rfl
          rw [if_pos rfl, hsp, wp_bind, derefSpace, wp_pure]
          have hkeep : Preserves (Protected R) (do unmapSpace sp; freeSpace sp; pure true) :=
            .bind preserves_unmapSpace fun _ => .bind (preserves_freeSpace hfree) fun _ => .pure true
          exact hkeep.wp ht1 fun _ _ h => h
    · exact h

/-- The spaces of the threads and the thread counts of the spaces. -/
def KState.counts (s : KState) : (TcbPtr → Option SpacePtr) × (SpacePtr → Word) :=
  (fun q => (s.tcb q).space, fun sp => (s.space sp).threadCount)

@[grind ←] theorem keepsCounts_modSpace {sp : SpacePtr} {f : Space → Space}
    (h : ∀ c, (f c).threadCount = c.threadCount) : Keeps KState.counts (modSpace sp f) := by
  refine .modify fun s => ?_
  simp only [KState.counts, Prod.mk.injEq, true_and]
  funext sp'
  rcases eq_or_ne sp' sp with rfl | hne
  · simp [h]
  · simp [hne]

theorem keepsCounts_allocateUtcb {o : Option SpacePtr} {loc : Word} :
    Keeps KState.counts (allocateUtcb o loc) := by
  have hkmem : ∀ f : Kmem → Kmem, Keeps KState.counts (modKmem f) := fun _ => .modify fun _ => rfl
  have hpage : ∀ n : Nat, Keeps KState.counts (zeroUtcbPage n) := fun _ => .modify fun _ => rfl
  unfold allocateUtcb
  dsimp only
  repeat' first | with_reducible refine Keeps.bind ?_ fun _ => ?_ | split
  all_goals grind

theorem wp_migrateToSpace_protected (h : Protected R s) {o : Option SpacePtr}
    (ho : IsProtected R o) (hroots : KeepsRoots R s p) :
    wp (fun _ => True) (migrateToSpace p o) (fun _ t => Protected R t) s := by
  rw [migrateToSpace, wp_bind, wp_readTcb, wp_bind, wp_iff_ok]
  intro u t1 hu
  have ht1 := preserves_allocateUtcb s u t1 h hu
  have hcounts := keepsCounts_allocateUtcb s u t1 hu
  have hp1 : (t1.tcb p).space = (s.tcb p).space := congrFun (congrArg Prod.fst hcounts) p
  have hc1 : ∀ sp, (t1.space sp).threadCount = (s.space sp).threadCount :=
    congrFun (congrArg Prod.snd hcounts)
  rw [wp_bind]
  refine keepsIdent_unwind.mem.wp fun _ t2 ht2 => ?_
  have hp2 : (t2.tcb p).space = (s.tcb p).space := (congrFun (congrArg Mem.spaceOf ht2) p).trans hp1
  have hspace2 : t2.space = t1.space := congrArg Mem.space ht2
  have ht2 : Protected R t2 := by rwa [Protected, ht2]
  rw [wp_bind, wp_readTcb, wp_bind, hp2]
  refine wp_mono (wp_removeTcb ht2 (h.isProtected _) fun r hr hsp => ?_)
    fun b t3 hpost => ?_
  · rw [hspace2, hc1]
    exact hroots r hr hsp
  · obtain ⟨ht3, _, hfree⟩ := hpost
    have hend : ∀ t : KState, Protected R t → wp (fun _ => True) (do
        setSpace p o
        modTcb p fun c => { c with utcb := some u }) (fun _ t => Protected R t) t := by
      intro t ht
      have hkeep : Preserves (Protected R) (do
          setSpace p o
          modTcb p fun c => { c with utcb := some u }) :=
        .bind (preserves_setSpace ho) fun _ => preserves_modTcb fun _ => .inl rfl
      exact hkeep.wp ht fun _ _ h => h
    cases b with
    | false => exact hend t3 ht3
    | true =>
      obtain ⟨old, hold, hfree⟩ := hfree rfl
      rw [if_pos rfl, hold, wp_bind, wp_derefSpace]
      refine ⟨fun _ => trivial, fun sp hsp => ?_⟩
      rw [wp_bind]
      refine preserves_unmapSpace.wp ht3 fun _ t4 ht4 => ?_
      rw [wp_bind, derefSpace, wp_pure, wp_bind]
      exact (preserves_freeSpace hfree).wp ht4 fun _ t5 ht5 => hend t5 ht5

/-! ### The calls -/

@[grind ←] theorem preserves_setGlobalId : Preserves (Protected R) (setGlobalId p tid) :=
  preserves_of_keepsMem keepsMem_setGlobalId

@[grind ←] theorem preserves_failWith {err : Word} : Preserves (Protected R) (failWith err) :=
  preserves_of_keepsMem keepsIdent_failWith.mem

@[grind ←] theorem preserves_checkUtcbLocation {loc : Word} :
    Preserves (Protected R) (checkUtcbLocation p loc) := by
  unfold checkUtcbLocation
  grind

@[grind ←] theorem preserves_modifySettings : Preserves (Protected R) (modifySettings p a) := by
  unfold modifySettings modifyPager setPager
  repeat' first | with_reducible refine Preserves.bind ?_ fun _ => ?_ | split
  all_goals grind

/-- A modification behind the choice of the location; `t` is the state with the location stored. -/
theorem wp_modifyThread_protected (h : Protected R s) (ht : t.mem = s.mem)
    (hroots : (t.tcb (getTcb a.destTid)).isActivated →
      (s.tcb (getTcb a.destTid)).space ≠ (s.tcb (getTcb a.spaceTid)).space →
      KeepsRoots R s (getTcb a.destTid)) :
    wp (fun _ => True) (modifyThread (getTcb a.destTid) a (s.tcb (getTcb a.spaceTid)).space)
      (fun _ t => Protected R t) t := by
  have hprot : Protected R t := by rwa [Protected, ht]
  have hsp : (t.tcb (getTcb a.destTid)).space = (s.tcb (getTcb a.destTid)).space :=
    congrFun (congrArg Mem.spaceOf ht) _
  have hspace : t.space = s.space := congrArg Mem.space ht
  rw [modifyThread, wp_bind, wp_readTcb, wp_ite]
  split
  · rename_i hne
    rw [wp_bind]
    cases hact : (t.tcb (getTcb a.destTid)).isActivated with
    | false =>
      -- the migration of an inactive thread does not return
      refine wp_mono wp_migrateToSpace_pre fun _ _ hpost => ?_
      obtain ⟨h, _⟩ := hpost
      rw [hact] at h
      cases h
    | true =>
      refine wp_mono (wp_migrateToSpace_protected hprot (h.isProtected _) fun r hr hr' => ?_)
        fun _ t1 ht1 => preserves_modifySettings.wp ht1 fun _ _ h => h
      rw [hspace]
      rw [hsp] at hne hr'
      exact hroots hact hne r hr hr'
  · exact preserves_modifySettings.wp hprot fun _ _ h => h

/-- A modification that does not take the last thread of a boot space away. -/
theorem wp_threadModify_protected (h : Protected R s) (hacc : s.Accepts a)
    (hnil : a.spaceTid.isNilthread = false) (hex : (s.tcb (getTcb a.destTid)).isExisting)
    (hroots : s.Modifies a →
      (s.tcb (getTcb a.destTid)).space ≠ (s.tcb (getTcb a.spaceTid)).space →
      KeepsRoots R s (getTcb a.destTid)) :
    wp (fun _ => True) (threadModify (getTcb a.destTid) a) (fun _ t => Protected R t) s := by
  rw [threadModify, wp_bind, wp_modifyUtcbLocation]
  split
  · rename_i hloc
    rw [if_pos rfl, wp_bind, wp_readTcb, wp_ite]
    split
    · exact preserves_failWith.wp h fun _ _ h => h
    · rename_i hid
      refine wp_modifyThread_protected h rfl fun hact hne => hroots ?_ hne
      exact ⟨hacc, hnil, hex, .inl hloc, by simpa using hid, .inr (.inl hact)⟩
  · split
    · exact preserves_failWith.wp h fun _ _ h => h
    · rename_i hinactive
      refine ⟨fun _ => trivial, fun sp hsp => ?_⟩
      split
      · have hprot : Protected R (s.withLocation (getTcb a.destTid) a.utcbLocation) := by
          rwa [Protected, KState.withLocation_mem]
        rw [if_pos rfl, wp_bind, wp_readTcb, wp_ite]
        split
        · exact preserves_failWith.wp hprot fun _ _ h => h
        · rw [KState.withLocation_space]
          refine wp_modifyThread_protected h KState.withLocation_mem fun hact => ?_
          rw [Tcb.isActivated, KState.withLocation_utcb] at hact
          exact absurd hact hinactive
      · exact preserves_failWith.wp h fun _ _ h => h

@[grind ←] theorem preserves_init : Preserves (Protected R) (Kernel.init p tid) := by
  unfold Kernel.init
  refine .bind (preserves_modTcb fun _ => .inr isProtected_none) fun _ => ?_
  grind

theorem preserves_threadControlInterrupt {irqTid handler : ThreadId} :
    Preserves (Protected R) (threadControlInterrupt irqTid handler) := by
  unfold threadControlInterrupt createKernelThread
  dsimp only
  repeat' first | with_reducible refine Preserves.bind ?_ fun _ => ?_ | split
  all_goals grind

theorem wp_createThread_protected (h : Protected R s) :
    wp (fun _ => True) (createThread p a) (fun _ t => Protected R t) s := by
  have hjoin : ∀ (o : Option SpacePtr) (t : KState), IsProtected R o → Protected R t →
      wp (fun _ => True) (do
        setSpace p o
        addTcb o
        if !a.pagerTid.isNilthread then startThread p a.pagerTid) (fun _ t => Protected R t) t := by
    intro o t ho ht
    have hadd : Preserves (Protected R) (addTcb o) := by
      unfold addTcb
      grind
    have hkeep : Preserves (Protected R) (do
        setSpace p o
        addTcb o
        if !a.pagerTid.isNilthread then startThread p a.pagerTid) :=
      .bind (preserves_setSpace ho) fun _ => .bind hadd fun _ => by grind
    exact hkeep.wp ht fun _ _ h => h
  have htail : ∀ t : KState, Protected R t → wp (fun _ => True) (do
      let space ← newThreadSpace a
      setSpace p space
      addTcb space
      if !a.pagerTid.isNilthread then startThread p a.pagerTid) (fun _ t => Protected R t) t := by
    intro t ht
    rw [wp_bind, newThreadSpace, wp_ite]
    split
    · rw [wp_bind, wp_readTcb, wp_pure]
      exact hjoin _ t (ht.isProtected _) ht
    · rw [wp_bind]
      exact ht.allocateSpace fun addr t' _ _ ht' hprot => hjoin _ t' hprot ht'
  rw [createThread, wp_bind]
  refine Preserves.wp (I := Protected R) ?_ h fun _ t1 ht1 => ?_
  · unfold createInactive
    exact .bind preserves_init fun _ => preserves_modTcb fun _ => .inl rfl
  · rw [wp_ite]
    split
    · have hloc : Preserves (Protected R) (setUtcbLocation p a.utcbLocation) :=
        preserves_modTcb fun _ => .inl rfl
      rw [wp_bind]
      exact hloc.wp ht1 fun _ t2 ht2 => htail t2 ht2
    · exact htail t1 ht1

/-- A call that does not take the last thread of a boot space away. -/
theorem wp_sysThreadControl_protected (h : Protected R s)
    (hdelete : s.Deletes a → KeepsRoots R s (getTcb a.destTid))
    (hmigrate : s.Modifies a →
      (s.tcb (getTcb a.destTid)).space ≠ (s.tcb (getTcb a.spaceTid)).space →
      KeepsRoots R s (getTcb a.destTid)) :
    wp (fun _ => True) (sysThreadControl a) (fun _ t => Protected R t) s := by
  have hfail : ∀ (t : KState) err, Protected R t →
      wp (fun _ => True) (failWith err) (fun _ t => Protected R t) t :=
    fun t err ht => preserves_failWith.wp ht fun _ _ h => h
  rw [wp_sysThreadControl]
  split
  · exact hfail s _ h
  · split
    · exact hfail s _ h
    · split
      · refine preserves_threadControlInterrupt.wp h fun r t ht => ?_
        split
        · exact ht
        · exact hfail t _ ht
      · split
        · exact hfail s _ h
        · have hacc : s.Accepts a := ⟨by simp_all, by simp_all, by simp_all⟩
          split
          · exact wp_threadDelete_protected h fun hne hex =>
              hdelete ⟨hacc, ‹_›, hne, hex⟩
          · split
            · exact wp_threadModify_protected h hacc (by simp_all) ‹_› hmigrate
            · rw [threadCreate, wp_bind]
              refine wp_mono (wp_createCheck_creates hacc (by simp_all) (by simp_all))
                fun o t hpost => ?_
              obtain ⟨ht, _⟩ := hpost
              subst ht
              cases o with
              | some err => exact hfail t err h
              | none =>
                change wp _ (createThread _ a >>= fun _ => pure true) _ _
                rw [wp_bind]
                exact wp_createThread_protected h

theorem preserves_sysSpaceControl {b : SpaceControlArgs} :
    Preserves (Protected R) (sysSpaceControl b) := by
  unfold sysSpaceControl isPrivilegedSpace isRoottaskSpace isSigma0Space isSigma1Space
    getCurrentSpace initSpace
  repeat' first | with_reducible refine Preserves.bind ?_ fun _ => ?_ | split
  all_goals grind

/-! ## The boot spaces do not change -/

/-- The variables of the privileged spaces. -/
def KState.roots (s : KState) : Option SpacePtr × Option SpacePtr × Option SpacePtr :=
  (s.sigma0Space, s.sigma1Space, s.roottaskSpace)

abbrev KeepsRootSpaces {α : Type} (x : Kernel α) : Prop := Keeps KState.roots x

section Roots

variable {sp : SpacePtr} {o : Option SpacePtr}

@[grind ←] theorem KeepsIdent.roots (h : KeepsIdent x) : KeepsRootSpaces x :=
  h.comp fun i : Ident => (i.sigma0Space, i.sigma1Space, i.roottaskSpace)

@[grind ←] theorem keepsRoots_modTcb {f : Tcb → Tcb} : KeepsRootSpaces (modTcb p f) :=
  .modify fun _ => rfl

@[grind ←] theorem keepsRoots_modSpace {f : Space → Space} : KeepsRootSpaces (modSpace sp f) :=
  .modify fun _ => rfl

@[grind ←] theorem keepsRoots_modKmem {f : Kmem → Kmem} : KeepsRootSpaces (modKmem f) :=
  .modify fun _ => rfl

@[grind ←] theorem keepsRoots_zeroUtcbPage {n : Nat} : KeepsRootSpaces (zeroUtcbPage n) :=
  .modify fun _ => rfl

@[grind ←] theorem keepsRoots_allocateUtcb {loc : Word} : KeepsRootSpaces (allocateUtcb o loc) := by
  unfold allocateUtcb
  dsimp only
  repeat' first | with_reducible refine Keeps.bind ?_ fun _ => ?_ | split
  all_goals grind

@[grind ←] theorem keepsRoots_startThread : KeepsRootSpaces (startThread p tid) := by
  unfold startThread activate setGlobalId setPager createStartupStack
  repeat' with_reducible refine Keeps.bind ?_ fun _ => ?_
  all_goals grind

@[grind ←] theorem keepsRoots_freeSpace : KeepsRootSpaces (freeSpace sp) := by
  unfold freeSpace
  grind

@[grind ←] theorem keepsRoots_threadDelete : KeepsRootSpaces (threadDelete p) := by
  unfold threadDelete deleteTcb removeTcb unmapSpace
  repeat' first | with_reducible refine Keeps.bind ?_ fun _ => ?_ | split
  all_goals grind

@[grind ←] theorem keepsRoots_migrateToSpace : KeepsRootSpaces (migrateToSpace p o) := by
  unfold migrateToSpace removeTcb unmapSpace
  repeat' first | with_reducible refine Keeps.bind ?_ fun _ => ?_ | split
  all_goals grind

@[grind ←] theorem keepsRoots_threadModify : KeepsRootSpaces (threadModify p a) := by
  unfold threadModify modifyThread modifyUtcbLocation modifySettings modifyPager checkUtcbLocation
    setPager setGlobalId
  repeat' first | with_reducible refine Keeps.bind ?_ fun _ => ?_ | split
  all_goals grind

@[grind ←] theorem keepsRoots_init : KeepsRootSpaces (Kernel.init p tid) := by
  unfold Kernel.init
  grind

@[grind ←] theorem keepsRoots_createThread : KeepsRootSpaces (createThread p a) := by
  unfold createThread createInactive newThreadSpace allocateSpace addTcb
  dsimp only
  repeat' first | with_reducible refine Keeps.bind ?_ fun _ => ?_ | split
  all_goals grind

@[grind ←] theorem keepsRoots_threadControlInterrupt {irqTid : ThreadId} :
    KeepsRootSpaces (threadControlInterrupt irqTid tid) := by
  unfold threadControlInterrupt createKernelThread
  dsimp only
  repeat' first | with_reducible refine Keeps.bind ?_ fun _ => ?_ | split
  all_goals grind

theorem keepsRoots_sysThreadControl : KeepsRootSpaces (sysThreadControl a) := by
  have hfail : ∀ err, KeepsRootSpaces (failWith err) := fun _ => keepsIdent_failWith.roots
  have hcheck : KeepsRootSpaces (createCheck a) := keepsIdent_createCheck.roots
  unfold sysThreadControl threadCreate isPrivilegedSpace isRoottaskSpace isSigma0Space
    isSigma1Space
  dsimp only
  repeat' first | with_reducible refine Keeps.bind ?_ fun _ => ?_ | split
  all_goals grind

theorem keepsRoots_sysSpaceControl {b : SpaceControlArgs} :
    KeepsRootSpaces (sysSpaceControl b) := by
  have hfail : ∀ err, KeepsRootSpaces (failWith err) := fun _ => keepsIdent_failWith.roots
  unfold sysSpaceControl isPrivilegedSpace isRoottaskSpace isSigma0Space isSigma1Space
    getCurrentSpace initSpace
  repeat' first | with_reducible refine Keeps.bind ?_ fun _ => ?_ | split
  all_goals grind

end Roots

/-! ## The boot -/

section Boot

variable {cfg : BootConfig} {pager : ThreadId} {tids : List ThreadId}

theorem keepsRoots_createRootServer :
    KeepsRootSpaces (createRootServer tid rootServerTid pager cfg) := by
  unfold createRootServer createInactive activate setGlobalId setPager createStartupStack addTcb
    initSpace allocateSpace
  dsimp only
  repeat' first | with_reducible refine Keeps.bind ?_ fun _ => ?_ | split
  all_goals grind

/-- The privileged spaces after a boot without `sigma1` are those of `sigma0` and of the root
server. -/
structure RootSpaces (s : KState) : Prop where
  sigma0 : ∃ sp, s.sigma0Space = some sp ∧ (s.tcb (getTcb sigma0Tid)).space = some sp
  sigma1 : s.sigma1Space = none
  roottask : ∀ sp, s.roottaskSpace = some sp → (s.tcb (getTcb rootServerTid)).space = some sp

theorem rootSpaces_initRootServers (hcfg : cfg.sigma1 = false) (h1 : s.sigma1Space = none)
    (h2 : s.roottaskSpace = none) :
    wp (fun _ => True) (initRootServers cfg) (fun _ t => RootSpaces t) s := by
  have hcreate : ∀ (tid : ThreadId) pager (s : KState), wp (fun _ => True)
      (createRootServer tid rootServerTid pager cfg) (fun sp t => t.roots = s.roots ∧
        (t.tcb (getTcb tid)).space = some sp ∧
        ∀ q ≠ getTcb tid, (t.tcb q).space = (s.tcb q).space) s := by
    intro tid pager s
    rw [wp_iff_ok]
    intro sp t ht
    obtain ⟨u, hself⟩ := wp_iff_ok.mp wp_createRootServer sp t ht
    refine ⟨keepsRoots_createRootServer s sp t ht, congrArg TcbIdent.space hself, fun q hq => ?_⟩
    exact congrArg TcbIdent.space (congrFun (keepsOthers_createRootServer s sp t ht) ⟨q, hq⟩)
  rw [initRootServers, wp_bind]
  refine wp_mono (hcreate _ _ s) fun sp0 t hpost => ?_
  obtain ⟨hroots, hsp0, _⟩ := hpost
  simp only [KState.roots, Prod.mk.injEq, h1, h2] at hroots
  rw [wp_bind, wp_modify, hcfg, if_neg (by simp), wp_ite]
  split
  · rw [wp_bind]
    refine wp_mono (hcreate _ _ _) fun sp2 t2 hpost => ?_
    obtain ⟨hroots2, hsp2, hothers⟩ := hpost
    simp only [KState.roots, Prod.mk.injEq, hroots] at hroots2
    refine ⟨⟨sp0, hroots2.1, ?_⟩, hroots2.2.1, fun sp hsp => ?_⟩
    · exact (hothers _ (by decide)).trans hsp0
    · cases hsp
      exact hsp2
  · exact ⟨⟨sp0, rfl, hsp0⟩, hroots.2.1, fun sp hsp => by simp [hroots.2.2] at hsp⟩

theorem rootSpaces_boot (hcfg : cfg.sigma1 = false) (h : boot cfg (KState.zero cfg) = .ok ((), s)) :
    RootSpaces s := by
  have hkernel : KeepsRootSpaces initKernelSpace := by
    unfold initKernelSpace allocateSpace
    repeat' first | with_reducible refine Keeps.bind ?_ fun _ => ?_ | split
    all_goals grind
  have hsched : KeepsRootSpaces initScheduler := by
    unfold initScheduler createKernelThread
    repeat' with_reducible refine Keeps.bind ?_ fun _ => ?_
    all_goals grind
  have hthreads : KeepsRootSpaces initKernelThreads := by
    unfold initKernelThreads createKernelThread
    repeat' with_reducible refine Keeps.bind ?_ fun _ => ?_
    all_goals grind
  suffices wp (fun _ => True) (boot cfg) (fun _ t => RootSpaces t) (KState.zero cfg) from
    wp_iff_ok.mp this () s h
  rw [boot, wp_bind]
  refine hkernel.wp fun _ t1 h1 => ?_
  rw [wp_bind]
  refine hsched.wp fun _ t2 h2 => ?_
  rw [wp_bind]
  refine hthreads.wp fun _ t3 h3 => ?_
  have hroots : t3.roots = (none, none, none) := by
    rw [h3, h2, h1]
    rfl
  simp only [KState.roots, Prod.mk.injEq] at hroots
  exact rootSpaces_initRootServers hcfg hroots.2.1 hroots.2.2

/-- While the root servers are created, UTCB pages are those of spaces with threads. -/
structure BootPages (tids : List ThreadId) (s : KState) : Prop extends BootMem tids s where
  live : ∀ sp, (s.space sp).utcbPages ≠ [] → ∃ q addr, sp = .heap addr ∧ (s.tcb q).space = some sp

theorem wp_allocateUtcb_space {sp : SpacePtr} {loc : Word} :
    wp (fun _ => True) (allocateUtcb (some sp) loc)
      (fun _ t => ∀ sp' ≠ sp, t.space sp' = s.space sp') s := by
  simp only [allocateUtcb, wp_bind, derefSpace, wp_pure, wp_gets]
  split
  · exact fun _ _ => rfl
  · rw [wp_bind, wp_gets]
    split
    · trivial
    · simp only [wp_bind, wp_modKmem, zeroUtcbPage, wp_modify, wp_modSpace, wp_pure]
      intro sp' hne
      rw [Function.update_of_ne hne]

theorem wp_activate_space (sp : SpacePtr) {n : Notify} (hp : (s.tcb p).space = some sp) :
    wp (fun _ => True) (activate p n tid) (fun _ t => ∀ sp' ≠ sp, t.space sp' = s.space sp') s := by
  rw [activate, wp_bind, wp_readTcb, wp_bind, hp]
  refine wp_mono wp_allocateUtcb_space fun u t ht => ?_
  refine Keeps.wp (f := KState.heap) ?_ fun _ t' ht' => ?_
  · unfold setGlobalId setPager createStartupStack
    repeat' with_reducible refine Keeps.bind ?_ fun _ => ?_
    all_goals grind
  · have hspace : t'.space = t.space := congrArg Prod.fst ht'
    rwa [hspace]

theorem wp_createRootServer_space : wp (fun _ => True)
    (createRootServer tid rootServerTid pager cfg) (fun sp t => (∃ addr, sp = .heap addr) ∧
      ∀ sp' ≠ sp, t.space sp' = s.space sp') s := by
  rw [createRootServer, wp_bind]
  refine wp_allocateSpace fun addr kmem halloc => ?_
  simp only [createInactive, initSpace, setSpace, addTcb, setUtcbLocation, wp_bind, wp_init,
    wp_modTcb, wp_modSpace, wp_derefSpace, Function.update_self, Function.update_idem]
  refine ⟨fun _ => trivial, fun sp hsp => ?_⟩
  obtain rfl := Option.some.inj hsp
  refine wp_mono (wp_activate_space (.heap addr) (by simp)) fun _ t1 ht1 => ?_
  refine keepsIdent_startRootServer.heap.wp fun _ t2 ht2 => ⟨⟨addr, rfl⟩, fun sp' hne => ?_⟩
  have hspace : t2.space = t1.space := congrArg Prod.fst ht2
  rw [hspace, ht1 sp' hne]
  simp [hne]

theorem BootPages.create (h : BootPages tids s) (htid : tid ∈ rootTids) (hnot : tid ∉ tids) :
    wp (fun _ => True) (createRootServer tid rootServerTid pager cfg)
      (fun _ t => BootPages (tid :: tids) t) s := by
  rw [wp_iff_ok]
  intro sp t ht
  obtain ⟨⟨addr, rfl⟩, hspace⟩ := wp_iff_ok.mp wp_createRootServer_space sp t ht
  obtain ⟨u, hself⟩ := wp_iff_ok.mp wp_createRootServer _ t ht
  refine ⟨wp_iff_ok.mp (h.toBootMem.create htid hnot) _ t ht, fun sp' hpages => ?_⟩
  rcases eq_or_ne sp' (.heap addr) with rfl | hne
  · exact ⟨getTcb tid, addr, rfl, congrArg TcbIdent.space hself⟩
  · rw [hspace sp' hne] at hpages
    obtain ⟨q, addr', rfl, hq⟩ := h.live sp' hpages
    have hqt : q ≠ getTcb tid := by
      rintro rfl
      rw [h.absent htid hnot] at hq
      cases hq
    refine ⟨q, addr', rfl, ?_⟩
    rw [← hq]
    exact congrArg TcbIdent.space (congrFun (keepsOthers_createRootServer s _ t ht) ⟨q, hqt⟩)

/-- After the boot the memory of every set of spaces with threads is protected. -/
theorem protected_boot (h : boot cfg (KState.zero cfg) = .ok ((), s))
    (hR : ∀ r ∈ R, ∃ q, (s.tcb q).space = some (.heap r)) : Protected R s := by
  obtain ⟨tids, hs⟩ := boot_rule (I := BootPages)
    (fun t hfree hnone hidle hzero => ⟨.of_idle hfree hnone hidle, by simp [hzero, Space.zero]⟩)
    (fun _ _ _ _ htid hnot hs => hs.create htid hnot)
    (fun _ _ _ _ _ hs => ⟨⟨hs.inv, hs.absent⟩, hs.live⟩) h
  obtain ⟨own, hown⟩ := hs.inv
  have hroot : ∀ c, IsRootChunk R c → ∃ r ∈ R, own c = some (.space r) := by
    rintro c ⟨r, hr, hc⟩
    obtain ⟨q, hq⟩ := hR r hr
    exact ⟨r, hr, hown.space hq hc⟩
  refine ⟨fun c hc hrc => ?_, fun sp u hu c hc hrc => ?_, fun q addr hq => ?_⟩
  · obtain ⟨r, -, ho⟩ := hroot c hrc
    exact hown.free.notMem ho hc
  · obtain ⟨q, addr, rfl, hq⟩ := hs.live sp (List.ne_nil_of_mem hu)
    obtain ⟨r, -, ho⟩ := hroot c hrc
    have hpage := hown.page hq hu hc
    rw [ho] at hpage
    cases hpage
  · by_cases haddr : addr ∈ R
    · exact .inl haddr
    · refine .inr fun c hc hrc => haddr ?_
      obtain ⟨r, hr, ho⟩ := hroot c hrc
      have hsp := hown.space hq hc
      rw [ho] at hsp
      cases hsp
      exact hr

end Boot

/-! ## Confinement -/

/-- The space of one of the servers that the boot created. -/
def KState.IsBootSpace (s : KState) (sp : SpacePtr) : Prop :=
  s.sigma0Space = some sp ∨ s.sigma1Space = some sp ∨ s.roottaskSpace = some sp

/-- The spaces that a step allocates. -/
def KState.makes (s : KState) : Event → List SpacePtr
  | .threadControl a => if s.Creates a ∧ a.destTid = a.spaceTid then (s.newSpace a).toList else []
  | _ => []

/-- A state, with the spaces that thread control allocated since the boot. -/
structure History where
  state : KState
  made : List SpacePtr

/-- A step of the system, with the spaces it allocates on record. -/
def History.next (h : History) (e : Event) : Option History :=
  (h.state.next e).map fun t => ⟨t, h.state.makes e ++ h.made⟩

abbrev History.Step (h : History) (e : Event) (h' : History) : Prop := h.next e = some h'

theorem History.step_iff {h h' : History} {e : Event} :
    h.Step e h' ↔ h.state.Step e h'.state ∧ h'.made = h.state.makes e ++ h.made := by
  constructor
  · intro hs
    obtain ⟨t, ht, rfl⟩ := Option.map_eq_some_iff.mp hs
    exact ⟨ht, rfl⟩
  · rintro ⟨ht, hmade⟩
    refine Option.map_eq_some_iff.mpr ⟨h'.state, ht, ?_⟩
    rw [← hmade]

/-- A call with the result `r` has an effect other than an error code. -/
def TakesEffect (s : KState) (r : Bool) (t : KState) : Prop := r = true ∨ ¬OnlyErrorCode s t

/-- Control calls are for the threads of the boot spaces, all of these threads are privileged, and
no later space is. -/
structure History.Confined (h : History) : Prop where
  threadControl {sp : SpacePtr} {a : ThreadControlArgs} {r : Bool} {t : KState} :
    h.state.current.space = some sp → sysThreadControl a h.state = .ok (r, t) →
    TakesEffect h.state r t → h.state.IsBootSpace sp
  spaceControl {sp : SpacePtr} {b : SpaceControlArgs} {r : Bool} {t : KState} :
    h.state.current.space = some sp → sysSpaceControl b h.state = .ok (r, t) →
    TakesEffect h.state r t → h.state.IsBootSpace sp
  privileged {p : TcbPtr} {sp : SpacePtr} : (h.state.tcb p).space = some sp →
    h.state.IsBootSpace sp → isPrivilegedSpace (some sp) h.state = .ok (true, h.state)
  made {sp : SpacePtr} : sp ∈ h.made →
    isPrivilegedSpace (some sp) h.state = .ok (false, h.state)

/-- No call deletes or migrates the last thread that a privileged space counts. -/
def PrivilegeSteps (h : History) : Event → Prop
  | .threadControl a => h.state.Deletes a ∨ h.state.Modifies a ∧
      (h.state.tcb (getTcb a.destTid)).space ≠ (h.state.tcb (getTcb a.spaceTid)).space →
      ∀ sp, (h.state.tcb (getTcb a.destTid)).space = some sp → h.state.IsBootSpace sp →
      (h.state.space sp).threadCount ≠ 1
  | _ => True

/-- The state after a boot without `sigma1`. -/
def History.Initial (h : History) : Prop :=
  (∃ cfg : BootConfig, cfg.sigma1 = false ∧ boot cfg (KState.zero cfg) = .ok ((), h.state)) ∧
    h.made = []

/-- The invariant: `R` are the addresses of the privileged spaces. -/
structure History.Inv (R : List Nat) (h : History) : Prop where
  mem : Protected R h.state
  sigma1 : h.state.sigma1Space = none
  roots : ∀ sp, h.state.IsBootSpace sp ↔ ∃ r ∈ R, sp = .heap r
  made : ∀ sp ∈ h.made, ¬h.state.IsBootSpace sp

theorem isPrivilegedSpace_eq {sp : SpacePtr} : isPrivilegedSpace (some sp) s =
    .ok (decide (some sp = s.roottaskSpace ∨ some sp = s.sigma0Space), s) := by
  have hwp : wp (fun _ => False) (isPrivilegedSpace (some sp)) (fun r t => r =
      decide (some sp = s.roottaskSpace ∨ some sp = s.sigma0Space) ∧ t = s) s := by
    simp [isPrivilegedSpace, isRoottaskSpace, isSigma0Space, isSigma1Space]
  obtain ⟨r, t, hx, rfl, rfl⟩ := wp_iff_exists.mp hwp
  exact hx

theorem OnlyErrorCode.of_failWith {err : Word} {r : Bool} (h : failWith err s = .ok (r, t)) :
    ¬TakesEffect s r t := by
  have hwp : wp (fun _ => True) (failWith err) (fun r t => r = false ∧ OnlyErrorCode s t) s := by
    rw [wp_failWith]
    exact ⟨fun _ => trivial, fun u hu => ⟨rfl, u, err, hu, rfl⟩⟩
  obtain ⟨rfl, ht⟩ := wp_iff_ok.mp hwp r t h
  rintro (h | h)
  · cases h
  · exact h ht

theorem KState.Privileged.of_threadControl {r : Bool} (h : sysThreadControl a s = .ok (r, t))
    (he : TakesEffect s r t) : s.Privileged := by
  by_contra hpriv
  have hwp : wp (fun _ => True) (sysThreadControl a) (fun r t => ¬TakesEffect s r t) s := by
    rw [wp_sysThreadControl, if_pos hpriv]
    exact wp_iff_ok.mpr fun r t h => OnlyErrorCode.of_failWith h
  exact wp_iff_ok.mp hwp r t h he

theorem KState.Privileged.of_spaceControl {b : SpaceControlArgs} {r : Bool}
    (h : sysSpaceControl b s = .ok (r, t)) (he : TakesEffect s r t) : s.Privileged := by
  by_contra hpriv
  have hwp : wp (fun _ => True) (sysSpaceControl b) (fun r t => ¬TakesEffect s r t) s := by
    rw [wp_sysSpaceControl, if_pos hpriv]
    exact wp_iff_ok.mpr fun r t h => OnlyErrorCode.of_failWith h
  exact wp_iff_ok.mp hwp r t h he

theorem KState.Privileged.isBootSpace (h : s.Privileged) {sp : SpacePtr}
    (hsp : s.current.space = some sp) : s.IsBootSpace sp := by
  rcases h with h | h
  · exact .inr (.inr (h.symm.trans hsp))
  · exact .inl (h.symm.trans hsp)

theorem History.Inv.confined {h : History} (hI : h.Inv R) : h.Confined where
  threadControl hsp ht he := (KState.Privileged.of_threadControl ht he).isBootSpace hsp
  spaceControl hsp ht he := (KState.Privileged.of_spaceControl ht he).isBootSpace hsp
  privileged _ hboot := by
    rw [isPrivilegedSpace_eq, decide_eq_true]
    rcases hboot with h0 | h1 | h2
    · exact .inr h0.symm
    · rw [hI.sigma1] at h1
      cases h1
    · exact .inl h2.symm
  made hsp := by
    rw [isPrivilegedSpace_eq, decide_eq_false]
    rintro (h2 | h0)
    · exact hI.made _ hsp (.inr (.inr h2.symm))
    · exact hI.made _ hsp (.inl h0.symm)

theorem KState.Step.roots {e : Event} (h : s.Step e t) : t.roots = s.roots := by
  have hrun := (KState.step_iff.mp h).2
  cases e with
  | threadControl a =>
    obtain ⟨r, u, hr, hu⟩ := bind_eq_ok.mp hrun
    cases hu
    exact keepsRoots_sysThreadControl s r t hr
  | spaceControl b =>
    obtain ⟨r, u, hr, hu⟩ := bind_eq_ok.mp hrun
    cases hu
    exact keepsRoots_sysSpaceControl s r t hr
  | _ =>
    have hi := h.ident rfl
    simp only [KState.ident, Ident.mk.injEq] at hi
    simp only [KState.roots, hi]

/-- A step that takes no last thread from a boot space keeps its memory. -/
theorem KState.Step.protected {e : Event} (h : s.Step e t) (hs : Protected R s)
    (hok : ∀ a, e = .threadControl a → s.Deletes a ∨ s.Modifies a ∧
      (s.tcb (getTcb a.destTid)).space ≠ (s.tcb (getTcb a.spaceTid)).space →
      KeepsRoots R s (getTcb a.destTid)) : Protected R t := by
  have hrun := (KState.step_iff.mp h).2
  cases e with
  | threadControl a =>
    obtain ⟨r, u, hr, hu⟩ := bind_eq_ok.mp hrun
    cases hu
    exact wp_iff_ok.mp (wp_sysThreadControl_protected hs (fun hd => hok a rfl (.inl hd))
      fun hm hne => hok a rfl (.inr ⟨hm, hne⟩)) r t hr
  | spaceControl b =>
    obtain ⟨r, u, hr, hu⟩ := bind_eq_ok.mp hrun
    cases hu
    exact preserves_sysSpaceControl s r t hs hr
  | _ => exact preserves_of_keepsMem (keepsIdent_runEvent rfl).mem s () t hs hrun

/-- A new space is none of the boot spaces. -/
theorem Protected.makes {e : Event} {sp : SpacePtr} (h : Protected R s) (hsp : sp ∈ s.makes e) :
    ¬∃ r ∈ R, sp = .heap r := by
  cases e with
  | threadControl a =>
    rw [KState.makes] at hsp
    split at hsp
    · rename_i hcre
      have hnew : s.newSpace a = some sp := by simpa using hsp
      rw [KState.newSpace, if_pos hcre.2] at hnew
      obtain ⟨⟨addr, kmem⟩, halloc, rfl⟩ := Option.map_eq_some_iff.mp hnew
      rintro ⟨r, hr, heq⟩
      cases heq
      obtain ⟨-, hperm⟩ := Kmem.alloc_perm halloc (by decide)
      have hmem : addr ∈ Kmem.chunks addr sizeofSpace := by
        simp [Kmem.chunks, Kmem.chunkSize, sizeofSpace]
      have hfree : addr ∈ s.kmem.freeList := hperm.mem_iff.mpr (List.mem_append_left _ hmem)
      exact h.free addr hfree ⟨addr, hr, hmem⟩
    · cases hsp
  | _ => cases hsp

theorem History.Inv.step {h h' : History} {e : Event} (hI : h.Inv R) (hok : PrivilegeSteps h e)
    (hs : h.Step e h') : h'.Inv R := by
  obtain ⟨hstep, hmade⟩ := History.step_iff.mp hs
  have hroots := hstep.roots
  simp only [KState.roots, Prod.mk.injEq] at hroots
  have hboot : ∀ sp, h'.state.IsBootSpace sp ↔ h.state.IsBootSpace sp := by
    intro sp
    simp only [KState.IsBootSpace, hroots]
  refine ⟨hstep.protected hI.mem ?_, hroots.2.1.trans hI.sigma1, ?_, ?_⟩
  · rintro a rfl hleave r hr hsp
    exact hok hleave _ hsp ((hI.roots _).mpr ⟨r, hr, rfl⟩)
  · intro sp
    rw [hboot]
    exact hI.roots sp
  · intro sp hsp
    rw [hboot]
    rw [hmade] at hsp
    rcases List.mem_append.mp hsp with hsp | hsp
    · rw [hI.roots]
      exact hI.mem.makes hsp
    · exact hI.made sp hsp

theorem History.Initial.inv {h : History} (hinit : h.Initial) : ∃ R, h.Inv R := by
  obtain ⟨⟨cfg, hcfg, hboot⟩, hmade⟩ := hinit
  obtain ⟨⟨sp0, hvar0, hsp0⟩, hvar1, hroot⟩ := rootSpaces_boot hcfg hboot
  have hheap : ∀ (q : TcbPtr) sp, q ≠ .idle → (h.state.tcb q).space = some sp →
      ∃ r, sp = .heap r := by
    intro q sp hq hsp
    obtain ⟨own, hown⟩ := Mem.inv_boot hboot
    cases sp with
    | heap r => exact ⟨r, rfl⟩
    | idle =>
      cases q with
      | idle => exact absurd rfl hq
      | t i => exact absurd hsp (hown.idle i)
  obtain ⟨r0, rfl⟩ := hheap _ _ (by decide) hsp0
  have hR : ∃ R : List Nat, (∀ r ∈ R, ∃ q, (h.state.tcb q).space = some (.heap r)) ∧
      ∀ sp, h.state.IsBootSpace sp ↔ ∃ r ∈ R, sp = .heap r := by
    cases hvar2 : h.state.roottaskSpace with
    | none =>
      refine ⟨[r0], by simpa using ⟨_, hsp0⟩, fun sp => ?_⟩
      simp [KState.IsBootSpace, hvar0, hvar1, hvar2, eq_comm]
    | some sp2 =>
      have hsp2 := hroot sp2 hvar2
      obtain ⟨r2, rfl⟩ := hheap _ _ (by decide) hsp2
      refine ⟨[r0, r2], by simpa using ⟨⟨_, hsp0⟩, ⟨_, hsp2⟩⟩, fun sp => ?_⟩
      simp [KState.IsBootSpace, hvar0, hvar1, hvar2, eq_comm]
  obtain ⟨R, hlive, hboots⟩ := hR
  exact ⟨R, protected_boot hboot hlive, hvar1, hboots, by simp [hmade]⟩

/-- In the runs in question, from a boot without `sigma1`, privilege is confined to the boot
spaces. -/
theorem privilege_confined {h : History}
    (hr : Run.Reach History.Initial History.Step PrivilegeSteps h) : h.Confined := by
  have hinv : ∃ R, h.Inv R := by
    induction hr with
    | init hinit => exact hinit.inv
    | step _ hok hs ih =>
      obtain ⟨R, hI⟩ := ih
      exact ⟨R, hI.step hok hs⟩
  obtain ⟨R, hI⟩ := hinv
  exact hI.confined

/-- Creations are among the steps in question. -/
def CreatingSteps (h : History) : Event → Prop
  | .threadControl a => h.state.Creates a
  | _ => True

instance (h : History) (e : Event) : Decidable (CreatingSteps h e) :=
  KState.decidableThreadControl h.state.Creates e

theorem CreatingSteps.privilegeSteps {h : History} {e : Event} (hok : CreatingSteps h e) :
    PrivilegeSteps h e := by
  cases e with
  | threadControl a =>
    rintro (hdel | ⟨hmod, -⟩)
    · exact absurd hdel (KState.Creates.not_deletes hok)
    · exact absurd hmod (KState.Creates.not_modifies hok)
  | _ => trivial

/-- `sigma0` creates a thread in a new space. -/
theorem exists_privilege_confined :
    ∃ h : History, Run.Reach History.Initial History.Step PrivilegeSteps h ∧ h.made ≠ [] ∧
      h.Confined := by
  have hinit : Run.Reach History.Initial History.Step CreatingSteps ⟨.sample, []⟩ :=
    .init ⟨⟨.sample, rfl, boot_sample⟩, rfl⟩
  have hexec : (Run.exec History.next CreatingSteps
      [.idle, .resume,
        .threadControl ⟨sampleTid 0, sampleTid 0, rootServerTid, .nilthread, noLocation32⟩]
      ⟨.sample, []⟩).any (fun h => decide (h.made ≠ [])) = true := by decide +kernel
  obtain ⟨h, hr, hP⟩ := Run.Reach.exists_of_exec hinit hexec
  have hr := hr.mono fun _ _ => CreatingSteps.privilegeSteps
  exact ⟨h, hr, of_decide_eq_true hP, privilege_confined hr⟩

/-- The sample system with a `sigma1` server. -/
def BootConfig.sampleSigma1 : BootConfig := { BootConfig.sample with sigma1 := true }

/-- After a boot with `sigma1`, its thread does not pass the check. -/
theorem exists_not_privilege_confined :
    ∃ h : History, Run.Reach (fun h => h.state.Booted ∧ h.made = []) History.Step
      (fun _ _ => True) h ∧ ¬h.Confined := by
  have hrun : returnsWith (boot .sampleSigma1) (fun _ s => decide (∃ sp ∈ s.sigma1Space,
      (s.tcb (getTcb sigma1Tid)).space = some sp ∧
        ¬(some sp = s.roottaskSpace ∨ some sp = s.sigma0Space))) (.zero .sampleSigma1) = true := by
    decide +kernel
  obtain ⟨_, s, hboot, hP⟩ := exists_of_returnsWith hrun
  obtain ⟨sp, hvar, hsp, hnot⟩ := of_decide_eq_true hP
  refine ⟨⟨s, []⟩, .init ⟨⟨_, hboot⟩, rfl⟩, fun hc => ?_⟩
  have hpriv := hc.privileged hsp (.inr (.inl hvar))
  rw [isPrivilegedSpace_eq, decide_eq_false hnot] at hpriv
  cases hpriv

end L4Thread
