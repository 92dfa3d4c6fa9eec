import Mathlib.Data.List.TakeWhile
import Mathlib.Data.Set.Lattice
import Mathlib.Order.CompletePartialOrder
import Mathlib.Order.Interval.Set.Basic
import L4Thread.Lib.Run
import L4Thread.Kernel.Memory

/-!
# Kernel memory

The allocators of `kmem_t` take an aligned block of consecutive chunks from the free list, and
freeing a block puts its chunks back. Together with the blocks that are in use, the allocator is a
transition system (`Heap`): its free list stays in ascending order, and the free chunks and the
blocks in use are a partition of the memory it was given.
-/

namespace L4Thread

namespace Kmem

variable {k k' : Kmem} {curr i n address size : Nat} {l rest : List Nat} {aligned : Nat → Bool}

/-- The `n` chunks from `curr` on, starting with the `i`-th. -/
def run (curr i n : Nat) : List Nat := (List.range' i (n - i)).map fun j => curr + chunkSize * j

theorem run_succ (h : i < n) : run curr i n = (curr + chunkSize * i) :: run curr (i + 1) n := by
  obtain ⟨m, rfl⟩ := Nat.exists_eq_add_of_lt h
  have h1 : i + m + 1 - i = m + 1 := by omega
  have h2 : i + m + 1 - (i + 1) = m := by omega
  simp [run, h1, h2, List.range'_succ]

theorem runAfter_eq (h : runAfter curr i n l = some rest) (hi : i ≤ n) :
    l = run curr i n ++ rest := by
  induction l generalizing i with
  | nil => simp [runAfter] at h
  | cons tmp l ih =>
    unfold runAfter at h
    split at h
    · rename_i hin
      split at h
      · rename_i htmp
        rw [run_succ hin, List.cons_append, ← ih h hin, htmp]
      · cases h
    · rename_i hin
      obtain rfl : i = n := by omega
      simpa [run] using h

/-- What is found is an aligned run, and it is taken out of the list. -/
theorem findRun_perm (h : findRun aligned n l = some (address, rest)) (hn : 1 ≤ n) :
    aligned address = true ∧ l.Perm (run address 0 n ++ rest) := by
  induction l generalizing rest with
  | nil => simp [findRun] at h
  | cons curr l ih =>
    unfold findRun at h
    split at h
    · rename_i rest' hrun
      cases h
      split at hrun
      · rename_i hal
        refine ⟨hal, ?_⟩
        rw [run_succ (by omega), runAfter_eq hrun hn]
        simp
      · cases hrun
    · obtain ⟨⟨addr', rest'⟩, hrec, heq⟩ := Option.map_eq_some_iff.mp h
      cases heq
      obtain ⟨hal, hp⟩ := ih hrec
      exact ⟨hal, (hp.cons curr).trans List.perm_middle.symm⟩

/-- The rest of the list keeps its order. -/
theorem findRun_sublist (h : findRun aligned n l = some (address, rest)) (hn : 1 ≤ n) :
    rest.Sublist l := by
  induction l generalizing rest with
  | nil => simp [findRun] at h
  | cons curr l ih =>
    unfold findRun at h
    split at h
    · rename_i rest' hrun
      cases h
      split at hrun
      · rw [runAfter_eq hrun hn]
        exact (List.sublist_append_right _ _).cons _
      · cases hrun
    · obtain ⟨⟨addr', rest'⟩, hrec, heq⟩ := Option.map_eq_some_iff.mp h
      cases heq
      exact (ih hrec).cons_cons curr

theorem chunks_eq_run : chunks address size = run address 0 (size / chunkSize) := by
  simp [chunks, run, List.range_eq_range']

theorem allocWhere_perm (h : k.allocWhere aligned size = some (address, k'))
    (hs : chunkSize ≤ size) :
    aligned address = true ∧ k.freeList.Perm (chunks address size ++ k'.freeList) := by
  obtain ⟨⟨a, r⟩, hrun, heq⟩ := Option.map_eq_some_iff.mp h
  cases heq
  rw [chunks_eq_run]
  exact findRun_perm hrun (Nat.div_pos hs (by decide))

theorem alloc_perm (h : k.alloc size = some (address, k')) (hs : chunkSize ≤ size) :
    address &&& (size - 1) = 0 ∧ k.freeList.Perm (chunks address size ++ k'.freeList) := by
  have hm : max size chunkSize = size := Nat.max_eq_left hs
  simp only [alloc, hm] at h
  obtain ⟨hal, hp⟩ := allocWhere_perm h hs
  exact ⟨by simpa using hal, hp⟩

theorem allocAligned_perm {alignment mask : Nat}
    (h : k.allocAligned size alignment mask = some (address, k')) (hs : chunkSize ≤ size) :
    k.freeList.Perm (chunks address size ++ k'.freeList) := by
  have hm : max size chunkSize = size := Nat.max_eq_left hs
  simp only [allocAligned, hm] at h
  exact (allocWhere_perm h hs).2

theorem free_perm_max :
    (k.free address size).freeList.Perm (chunks address (max size chunkSize) ++ k.freeList) := by
  simp only [free]
  rw [List.append_assoc]
  refine (List.perm_append_comm_assoc _ _ _).trans ?_
  rw [List.takeWhile_append_dropWhile]

theorem free_perm (hs : chunkSize ≤ size) :
    (k.free address size).freeList.Perm (chunks address size ++ k.freeList) := by
  have hperm := @free_perm_max k address size
  rwa [Nat.max_eq_left hs] at hperm

theorem chunks_nodup : (chunks address size).Nodup := by
  refine (List.nodup_range).map fun i j hij => ?_
  simp only [chunkSize] at hij
  omega

theorem mem_chunks {c : Nat} : c ∈ chunks address size ↔
    ∃ i < size / chunkSize, c = address + chunkSize * i := by
  simp only [chunks, List.mem_map, List.mem_range]
  constructor
  · rintro ⟨i, hi, rfl⟩
    exact ⟨i, hi, rfl⟩
  · rintro ⟨i, hi, rfl⟩
    exact ⟨i, hi, rfl⟩

theorem length_chunks : (chunks address size).length = size / chunkSize := by
  simp [chunks]

theorem chunks_ascending : (chunks address size).Pairwise (· < ·) := by
  refine List.pairwise_map.mpr (List.pairwise_lt_range.imp fun {i j} hij => ?_)
  simp only [chunkSize]
  omega

theorem le_of_mem_dropWhile (hl : l.Pairwise (· < ·)) {d : Nat}
    (hd : d ∈ l.dropWhile (· < address)) : address ≤ d := by
  induction l with
  | nil => simp at hd
  | cons c l ih =>
    obtain ⟨hc, hl⟩ := List.pairwise_cons.mp hl
    by_cases hlt : c < address
    · rw [List.dropWhile_cons_of_pos (by simpa using hlt)] at hd
      exact ih hl hd
    · rw [List.dropWhile_cons_of_neg (by simpa using hlt)] at hd
      rcases List.mem_cons.mp hd with rfl | hd
      · omega
      · have := hc d hd
        omega

/-- A block is freed in its place if no free chunk lies inside it. -/
theorem free_ascending (hk : k.freeList.Pairwise (· < ·))
    (hgap : ∀ d ∈ k.freeList, address ≤ d → ∀ c ∈ chunks address (max size chunkSize), c < d) :
    (k.free address size).freeList.Pairwise (· < ·) := by
  have hpair := hk
  rw [← @List.takeWhile_append_dropWhile _ (· < address) k.freeList] at hpair
  obtain ⟨htake, hdrop, hcross⟩ := List.pairwise_append.mp hpair
  simp only [free]
  refine List.pairwise_append.mpr
    ⟨List.pairwise_append.mpr ⟨htake, chunks_ascending, fun c hc d hd => ?_⟩, hdrop, ?_⟩
  · have hlt := List.mem_takeWhile_imp hc
    obtain ⟨i, -, rfl⟩ := mem_chunks.mp hd
    simp only [decide_eq_true_eq] at hlt
    omega
  · intro c hc d hd
    rcases List.mem_append.mp hc with hc | hc
    · exact hcross c hc d hd
    · exact hgap d ((List.dropWhile_sublist _).subset hd) (le_of_mem_dropWhile hk hd) c hc

end Kmem

/-! ## Blocks in use -/

/-- A block of memory that was handed out, with the size that was asked for. -/
structure Block where
  address : Nat
  size : Nat
  deriving DecidableEq

namespace Block

/-- The size of the memory behind a block: at least one chunk. -/
def extent (b : Block) : Nat := max b.size Kmem.chunkSize

def chunks (b : Block) : List Nat := Kmem.chunks b.address b.extent

def bytes (b : Block) : Set Nat := Set.Ico b.address (b.address + b.extent)

/-- The sizes the code asserts: at most one chunk, or a multiple of the chunk size. -/
def Valid (b : Block) : Prop := b.extent % Kmem.chunkSize = 0

instance (b : Block) : Decidable b.Valid := inferInstanceAs (Decidable (_ = _))

/-- The block that is a single chunk. -/
def chunk (c : Nat) : Block := ⟨c, Kmem.chunkSize⟩

theorem mem_bytes_chunk {c x : Nat} : x ∈ (chunk c).bytes ↔ c ≤ x ∧ x < c + Kmem.chunkSize := by
  simp [chunk, bytes, extent]

/-- A block consists of the bytes of its chunks. -/
theorem mem_bytes_iff {b : Block} (h : b.Valid) {x : Nat} :
    x ∈ b.bytes ↔ ∃ c ∈ b.chunks, x ∈ (chunk c).bytes := by
  have hpos : 0 < Kmem.chunkSize := by decide
  have hext : b.extent = b.extent / Kmem.chunkSize * Kmem.chunkSize :=
    (Nat.div_mul_cancel (Nat.dvd_of_mod_eq_zero h)).symm
  simp only [mem_bytes_chunk]
  simp only [bytes, chunks, Kmem.mem_chunks, Set.mem_Ico]
  simp only [Kmem.chunkSize] at hext hpos ⊢
  constructor
  · rintro ⟨h1, h2⟩
    refine ⟨_, ⟨(x - b.address) / 1024, ?_, rfl⟩, ?_, ?_⟩ <;> omega
  · rintro ⟨c, ⟨i, hi, rfl⟩, h1, h2⟩
    constructor <;> omega

/-- Aligned chunks that share a byte are the same. -/
theorem chunk_eq_of_overlap {c d x : Nat} (hc : c % Kmem.chunkSize = 0) (hd : d % Kmem.chunkSize = 0)
    (hxc : x ∈ (chunk c).bytes) (hxd : x ∈ (chunk d).bytes) : c = d := by
  simp only [mem_bytes_chunk, Kmem.chunkSize] at hc hd hxc hxd
  omega

theorem address_mem_chunks (b : Block) : b.address ∈ b.chunks := by
  refine Kmem.mem_chunks.mpr ⟨0, Nat.div_pos (Nat.le_max_right _ _) (by decide), by simp⟩

end Block

/-! ## The allocator and its clients -/

/-- Kernel memory and the blocks in use. -/
structure Heap where
  kmem : Kmem
  blocks : List Block
  deriving DecidableEq

/-- The calls of the clients. -/
inductive HeapCall
  | alloc (size : Nat)
  | allocAligned (size alignment mask : Nat)
  | free (b : Block)
  deriving DecidableEq

namespace Heap

/-- `kmem_t::init`. -/
def init (start stop : Nat) : Heap := ⟨Kmem.free ⟨[], 0⟩ start (stop - start), []⟩

/-- The result of an allocation; a failed allocation returns the null pointer. -/
def allocated (h : Heap) (size : Nat) : Option (Nat × Kmem) → Heap
  | none => h
  | some (address, kmem) => ⟨kmem, ⟨address, size⟩ :: h.blocks⟩

/-- The calls with sizes that are asserted; a client frees a block in use with its size. -/
def next (h : Heap) : HeapCall → Option Heap
  | .alloc size =>
    if Block.Valid ⟨0, size⟩ then some (h.allocated size (h.kmem.alloc size)) else none
  | .allocAligned size alignment mask =>
    if Block.Valid ⟨0, size⟩ then
      some (h.allocated size (h.kmem.allocAligned size alignment mask))
    else none
  | .free b =>
    if b ∈ h.blocks then some ⟨h.kmem.free b.address b.size, h.blocks.erase b⟩ else none

/-- The memory from `start` to `stop` is aligned to chunks, and `h` is the state initialised
with it. -/
def Initial (start stop : Nat) (h : Heap) : Prop :=
  start % Kmem.chunkSize = 0 ∧ stop % Kmem.chunkSize = 0 ∧ start ≤ stop ∧ h = init start stop

/-- The states that calls reach from the initial state. -/
abbrev Reachable (start stop : Nat) : Heap → Prop :=
  Run.Reach (Initial start stop) (fun h e h' => h.next e = some h') fun _ _ => True

/-- The memory that is free or in use. -/
def memory (h : Heap) : Set Nat :=
  (⋃ c ∈ h.kmem.freeList, (Block.chunk c).bytes) ∪ ⋃ b ∈ h.blocks, b.bytes

/-- The chunks that are free or in use. -/
def allChunks (h : Heap) : List Nat := h.kmem.freeList ++ h.blocks.flatMap Block.chunks

/-- The free list is in order and counted, and the chunks are those of `region`. -/
structure Inv (region : List Nat) (h : Heap) : Prop where
  ascending : h.kmem.freeList.Pairwise (· < ·)
  count : h.kmem.freeChunks = h.kmem.freeList.length
  valid : ∀ b ∈ h.blocks, b.Valid
  perm : h.allChunks.Perm region

variable {region : List Nat} {h h' : Heap} {size : Nat} {b : Block}

/-- An allocation takes a run of chunks out of the free list. -/
theorem Inv.allocated (hI : h.Inv region) (hsize : Block.Valid ⟨0, size⟩) {aligned : Nat → Bool}
    {r : Option (Nat × Kmem)} (hr : r = h.kmem.allocWhere aligned (max size Kmem.chunkSize)) :
    (h.allocated size r).Inv region := by
  cases r with
  | none => exact hI
  | some r =>
    obtain ⟨address, kmem⟩ := r
    have hle : Kmem.chunkSize ≤ max size Kmem.chunkSize := Nat.le_max_right _ _
    obtain ⟨-, hperm⟩ := Kmem.allocWhere_perm hr.symm hle
    obtain ⟨⟨a, rest⟩, hrun, heq⟩ := Option.map_eq_some_iff.mp hr.symm
    cases heq
    have hsub := Kmem.findRun_sublist hrun (Nat.div_pos hle (by decide))
    refine ⟨hI.ascending.sublist hsub, ?_, ?_, ?_⟩
    · have hlen := hperm.length_eq
      rw [List.length_append, Kmem.length_chunks] at hlen
      simp only [Heap.allocated, hI.count]
      exact Nat.sub_eq_of_eq_add' hlen
    · intro b hb
      rcases List.mem_cons.mp hb with rfl | hb
      · exact hsize
      · exact hI.valid b hb
    · refine List.Perm.trans ?_ hI.perm
      simp only [allChunks, Heap.allocated, List.flatMap_cons]
      rw [← List.append_assoc]
      refine List.Perm.append_right _ ?_
      exact List.perm_append_comm.trans hperm.symm

/-- The chunks of a block in use are not free, and come back in their place. -/
theorem Inv.free (hI : h.Inv region) (hnodup : region.Nodup)
    (halign : ∀ c ∈ region, c % Kmem.chunkSize = 0) (hb : b ∈ h.blocks) :
    (Heap.mk (h.kmem.free b.address b.size) (h.blocks.erase b)).Inv region := by
  have hblocks : (h.blocks.flatMap Block.chunks).Perm
      (b.chunks ++ (h.blocks.erase b).flatMap Block.chunks) :=
    (List.perm_cons_erase hb).flatMap_right _
  have hall : (h.kmem.freeList ++ (b.chunks ++ (h.blocks.erase b).flatMap Block.chunks)).Perm
      region := (hblocks.symm.append_left _).trans hI.perm
  have hdisj : ∀ c ∈ h.kmem.freeList, c ∉ b.chunks := by
    intro c hc hcb
    have := (List.nodup_append.mp (hall.nodup_iff.mpr hnodup)).2.2 c hc c
      (List.mem_append_left _ hcb)
    exact this rfl
  have hmem : ∀ c ∈ b.chunks, c % Kmem.chunkSize = 0 := fun c hc => halign c
    (hall.mem_iff.mp (List.mem_append_right _ (List.mem_append_left _ hc)))
  have hb0 := hmem _ b.address_mem_chunks
  refine ⟨Kmem.free_ascending hI.ascending fun d hd hle c hc => ?_, ?_,
    fun b' hb' => hI.valid b' (List.mem_of_mem_erase hb'), ?_⟩
  · have hd0 := halign d (hall.mem_iff.mp (List.mem_append_left _ hd))
    by_contra hcd
    refine hdisj d hd (Kmem.mem_chunks.mpr ⟨(d - b.address) / Kmem.chunkSize, ?_, ?_⟩)
    · obtain ⟨i, hi, rfl⟩ := Kmem.mem_chunks.mp hc
      rw [Block.extent]
      simp only [Kmem.chunkSize] at *
      omega
    · simp only [Kmem.chunkSize] at *
      omega
  · have hlen := (@Kmem.free_perm_max h.kmem b.address b.size).length_eq
    rw [List.length_append, Kmem.length_chunks] at hlen
    rw [hlen, ← hI.count, Nat.add_comm]
    rfl
  · refine List.Perm.trans (List.Perm.append_right _ Kmem.free_perm_max) ?_
    rw [List.append_assoc]
    exact (List.perm_append_comm_assoc _ _ _).trans hall

/-- A call keeps the invariant. -/
theorem Inv.next (hI : h.Inv region) (hnodup : region.Nodup)
    (halign : ∀ c ∈ region, c % Kmem.chunkSize = 0) {e : HeapCall} (he : h.next e = some h') :
    h'.Inv region := by
  cases e with
  | alloc size =>
    simp only [Heap.next] at he
    split at he
    · cases he
      exact hI.allocated ‹_› rfl
    · cases he
  | allocAligned size alignment mask =>
    simp only [Heap.next] at he
    split at he
    · cases he
      exact hI.allocated ‹_› rfl
    · cases he
  | free b =>
    simp only [Heap.next] at he
    split at he
    · cases he
      exact hI.free hnodup halign ‹_›
    · cases he

/-- The memory of a state with the invariant is that of its region. -/
theorem Inv.memory_eq (hI : h.Inv region) :
    h.memory = { x | ∃ c ∈ region, x ∈ (Block.chunk c).bytes } := by
  ext x
  simp only [memory, Set.mem_union, Set.mem_iUnion, exists_prop, Set.mem_ofPred_eq,
    ← hI.perm.mem_iff, allChunks, List.mem_append, List.mem_flatMap]
  constructor
  · rintro (⟨c, hc, hx⟩ | ⟨b, hb, hx⟩)
    · exact ⟨c, .inl hc, hx⟩
    · obtain ⟨c, hc, hx⟩ := (Block.mem_bytes_iff (hI.valid b hb)).mp hx
      exact ⟨c, .inr ⟨b, hb, hc⟩, hx⟩
  · rintro ⟨c, hc | ⟨b, hb, hc⟩, hx⟩
    · exact .inl ⟨c, hc, hx⟩
    · exact .inr ⟨b, hb, (Block.mem_bytes_iff (hI.valid b hb)).mpr ⟨c, hc, hx⟩⟩

/-- The free list is in ascending order, aligned and counted; no block in use overlaps a free chunk
or another block; and the memory is that of the initialisation. -/
structure Consistent (start stop : Nat) (h : Heap) : Prop where
  ascending : h.kmem.freeList.Pairwise (· < ·)
  aligned : ∀ c ∈ h.kmem.freeList, c % Kmem.chunkSize = 0
  count : h.kmem.freeChunks = h.kmem.freeList.length
  separate : ∀ b ∈ h.blocks, ∀ c ∈ h.kmem.freeList, Disjoint b.bytes (Block.chunk c).bytes
  disjoint : h.blocks.Pairwise fun b b' => Disjoint b.bytes b'.bytes
  memory : h.memory = (init start stop).memory

theorem Consistent.of_inv {start stop : Nat} (hI : h.Inv region) (h0 : (init start stop).Inv region)
    (hnodup : region.Nodup) (halign : ∀ c ∈ region, c % Kmem.chunkSize = 0) :
    h.Consistent start stop := by
  obtain ⟨-, hblocks, hcross⟩ := List.nodup_append.mp (hI.perm.nodup_iff.mpr hnodup)
  have hfree : ∀ c ∈ h.kmem.freeList, c % Kmem.chunkSize = 0 := fun c hc =>
    halign c (hI.perm.mem_iff.mp (List.mem_append_left _ hc))
  have hused : ∀ b ∈ h.blocks, ∀ c ∈ b.chunks, c % Kmem.chunkSize = 0 := fun b hb c hc =>
    halign c (hI.perm.mem_iff.mp
      (List.mem_append_right _ (List.mem_flatMap.mpr ⟨b, hb, hc⟩)))
  refine ⟨hI.ascending, hfree, hI.count, fun b hb c hc => ?_, ?_, ?_⟩
  · refine Set.disjoint_left.mpr fun x hxb hxc => ?_
    obtain ⟨d, hd, hxd⟩ := (Block.mem_bytes_iff (hI.valid b hb)).mp hxb
    have heq := Block.chunk_eq_of_overlap (hfree c hc) (hused b hb d hd) hxc hxd
    exact hcross c hc d (List.mem_flatMap.mpr ⟨b, hb, hd⟩) heq
  · refine (List.nodup_flatMap.mp hblocks).2.imp_of_mem fun {b b'} hb hb' hdisj => ?_
    refine Set.disjoint_left.mpr fun x hxb hxb' => ?_
    obtain ⟨c, hc, hxc⟩ := (Block.mem_bytes_iff (hI.valid b hb)).mp hxb
    obtain ⟨d, hd, hxd⟩ := (Block.mem_bytes_iff (hI.valid b' hb')).mp hxb'
    obtain rfl := Block.chunk_eq_of_overlap (hused b hb c hc) (hused b' hb' d hd) hxc hxd
    exact hdisj hc hd
  · rw [hI.memory_eq, h0.memory_eq]

theorem inv_init {start stop : Nat} : (init start stop).Inv (Block.mk start (stop - start)).chunks := by
  refine ⟨?_, ?_, by simp [init], ?_⟩
  · exact Kmem.free_ascending .nil (by simp)
  · simp [init, Kmem.free, Kmem.length_chunks]
  · simp [allChunks, init, Kmem.free, Block.chunks, Block.extent]

/-- Every run of the allocator on an aligned region keeps its free list in order and its memory
together. -/
theorem consistent {start stop : Nat} (hr : Heap.Reachable start stop h) :
    h.Consistent start stop := by
  have hnodup : (Block.mk start (stop - start)).chunks.Nodup := Kmem.chunks_nodup
  have halign : start % Kmem.chunkSize = 0 →
      ∀ c ∈ (Block.mk start (stop - start)).chunks, c % Kmem.chunkSize = 0 := by
    intro hstart c hc
    obtain ⟨i, -, rfl⟩ := Kmem.mem_chunks.mp hc
    simp only [Kmem.chunkSize] at hstart ⊢
    omega
  have hinv : h.Inv (Block.mk start (stop - start)).chunks ∧ start % Kmem.chunkSize = 0 := by
    induction hr with
    | init h0 =>
      obtain ⟨hstart, -, -, rfl⟩ := h0
      exact ⟨inv_init, hstart⟩
    | step _ _ he ih => exact ⟨ih.1.next hnodup (halign ih.2) he, ih.2⟩
  exact .of_inv hinv.1 inv_init hnodup (halign hinv.2)

/-- A block is allocated from twelve chunks, and a second one in place of the first. -/
theorem exists_consistent :
    ∃ h : Heap, Heap.Reachable 0x10000 0x13000 h ∧ h.blocks = [⟨0x10000, 8⟩] ∧
      h.Consistent 0x10000 0x13000 := by
  have hinit : Heap.Reachable 0x10000 0x13000 (init 0x10000 0x13000) :=
    .init ⟨by decide, by decide, by decide, rfl⟩
  have hexec : (Run.exec Heap.next (fun _ _ => True)
      [.alloc 4096, .free ⟨0x10000, 4096⟩, .allocAligned 8 0 0x1000] (init 0x10000 0x13000)).any
      (fun h => h.blocks = [⟨0x10000, 8⟩]) = true := by decide +kernel
  obtain ⟨h, hr, hP⟩ := Run.Reach.exists_of_exec hinit hexec
  exact ⟨h, hr, of_decide_eq_true hP, consistent hr⟩

end Heap

end L4Thread
