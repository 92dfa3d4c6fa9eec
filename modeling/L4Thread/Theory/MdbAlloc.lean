import L4Thread.Kernel.MdbAlloc
import L4Thread.Lib.Run
import L4Thread.Lib.Stack
import Mathlib.Data.List.Nodup
import Mathlib.Data.List.Pairwise
import Mathlib.Data.List.Perm.Subperm

/-!
# Invariant of the buffer allocator

A layout says which frames the allocator has and for which class, the free list of every frame, and
the list of pools of every class. `MdbFrames` connects the management structures, the link words and
the chunks of `kmem` with it, and says that the outstanding buffers are the others of each frame;
`MdbPools` connects the lists of pools, which contain the frames with a free buffer.
-/

namespace L4Thread

open Stack

/-! ## Classes -/

namespace MdbBuflist

/-- The buffers of a frame fit behind its management structure. -/
def Ok (bl : MdbBuflist) : Prop :=
  bl.size < mdbAllocChunksz →
    0 < bl.size ∧ 0 < bl.maxFree ∧ mdbMngSize + bl.maxFree * bl.size ≤ mdbAllocChunksz

/-- There is no room for another buffer. -/
def Filled (bl : MdbBuflist) : Prop :=
  bl.size < mdbAllocChunksz → mdbAllocChunksz < mdbMngSize + (bl.maxFree + 1) * bl.size

/-- The first buffer of the frame at `m`. -/
def first (bl : MdbBuflist) (m : Nat) : Nat := m + mdbAllocChunksz - bl.maxFree * bl.size

/-- The buffers of the frame at `m`. -/
def slots (bl : MdbBuflist) (m : Nat) : List Nat :=
  (List.range bl.maxFree).map fun j => bl.first m + j * bl.size

variable {bl : MdbBuflist} {m b b' : Nat}

theorem mem_slots : b ∈ bl.slots m ↔ ∃ j < bl.maxFree, bl.first m + j * bl.size = b := by
  simp only [slots, List.mem_map, List.mem_range]

theorem length_slots : (bl.slots m).length = bl.maxFree := by
  rw [slots, List.length_map, List.length_range]

theorem slots_nodup (hpos : 0 < bl.size) : (bl.slots m).Nodup := by
  refine List.Nodup.map (fun i j h => ?_) List.nodup_range
  exact Nat.eq_of_mul_eq_mul_right hpos (Nat.add_left_cancel h)

/-- A buffer is inside of its frame, behind the management structure. -/
theorem Ok.slot_bounds (h : bl.Ok) (hs : bl.size < mdbAllocChunksz) (hb : b ∈ bl.slots m) :
    m + mdbMngSize ≤ b ∧ b + bl.size ≤ m + mdbAllocChunksz := by
  obtain ⟨hpos, -, hfit⟩ := h hs
  obtain ⟨j, hj, rfl⟩ := mem_slots.1 hb
  have hmul : (j + 1) * bl.size ≤ bl.maxFree * bl.size := Nat.mul_le_mul_right _ hj
  rw [Nat.add_mul, Nat.one_mul] at hmul
  unfold first
  omega

/-- The frame of a buffer is found by its address. -/
theorem Ok.slot_frame (h : bl.Ok) (hs : bl.size < mdbAllocChunksz) (hm : m % mdbAllocChunksz = 0)
    (hb : b ∈ bl.slots m) : b / mdbAllocChunksz * mdbAllocChunksz = m := by
  obtain ⟨hlo, hhi⟩ := h.slot_bounds hs hb
  obtain ⟨hpos, -, -⟩ := h hs
  unfold mdbAllocChunksz at *
  omega

/-- Two buffers of a frame do not overlap. -/
theorem slots_apart (hb : b ∈ bl.slots m) (hb' : b' ∈ bl.slots m) (hne : b ≠ b') :
    b + bl.size ≤ b' ∨ b' + bl.size ≤ b := by
  obtain ⟨i, -, rfl⟩ := mem_slots.1 hb
  obtain ⟨j, -, rfl⟩ := mem_slots.1 hb'
  have hij : i ≠ j := by
    rintro rfl
    exact hne rfl
  have hmul : ∀ {i j : Nat}, i < j → i * bl.size + bl.size ≤ j * bl.size := by
    intro i j h
    rw [← Nat.succ_mul]
    exact Nat.mul_le_mul_right _ h
  rcases Nat.lt_or_gt_of_ne hij with h | h
  · left
    have := hmul h
    omega
  · right
    have := hmul h
    omega

end MdbBuflist

/-- The loop of `mdb_buflist_init` ends, and the buffers fit, if no subtraction wraps around. -/
theorem maxFreeLoop_spec {size : Nat} (hpos : 0 < size)
    (hsize : size ≤ mdbMngSize ∨ size ∣ mdbAllocChunksz) (fuel i k : Nat) (hfuel : i < fuel)
    (hi : i + (k + 1) * size = mdbAllocChunksz)
    (hk : k = 0 ∨ mdbMngSize + k * size ≤ mdbAllocChunksz) :
    ∃ n, maxFreeLoop size fuel i k = some n ∧ k ≤ n ∧ (mdbMngSize ≤ i → k < n) ∧
      (n = 0 ∨ mdbMngSize + n * size ≤ mdbAllocChunksz) ∧
      mdbAllocChunksz < mdbMngSize + (n + 1) * size := by
  induction fuel generalizing i k with
  | zero => exact absurd hfuel (Nat.not_lt_zero i)
  | succ fuel ih =>
    rw [maxFreeLoop]
    split
    · rename_i hle
      have hsi : size ≤ i := by
        rcases hsize with hsmall | hdvd
        · exact Nat.le_trans hsmall hle
        · have hdvd' : size ∣ i := by
            exact (Nat.dvd_add_left (Nat.dvd_mul_left size (k + 1))).1 (hi ▸ hdvd)
          exact Nat.le_of_dvd (by unfold mdbMngSize at hle; omega) hdvd'
      have hi64 : i < 2 ^ 64 := by
        unfold mdbAllocChunksz at hi
        omega
      have hstep : (i + 2 ^ 64 - size) % 2 ^ 64 = i - size := by omega
      have hmul : (k + 1 + 1) * size = (k + 1) * size + size := Nat.succ_mul ..
      rw [hstep]
      obtain ⟨n, hn, hkn, -, hfit⟩ := ih (i - size) (k + 1) (by omega) (by omega) (.inr (by omega))
      exact ⟨n, hn, by omega, fun _ => hkn, hfit⟩
    · rename_i hlt
      exact ⟨k, rfl, Nat.le_refl k, fun h => absurd h hlt, hk, by omega⟩

/-- A size that the mapping database is configured with. -/
def Configured (size : Nat) : Prop := size = mapnodeSize ∨ size = dualnodeSize ∨
  ∃ d, size = 2 ^ d * rootnodeSize

theorem Configured.pos {size : Nat} (h : Configured size) : 0 < size := by
  rcases h with rfl | rfl | ⟨d, rfl⟩
  · decide
  · decide
  · exact Nat.mul_pos (Nat.two_pow_pos d) (by decide)

/-- The small sizes fit the loop. -/
theorem Configured.fits {size : Nat} (h : Configured size) (hs : size < mdbAllocChunksz) :
    size ≤ mdbMngSize ∨ size ∣ mdbAllocChunksz := by
  rcases h with rfl | rfl | ⟨d, rfl⟩
  · left
    decide
  · left
    decide
  · right
    have hpow : 2 ^ d * rootnodeSize = 2 ^ (d + 3) := (Nat.pow_add 2 d 3).symm
    rw [hpow] at hs ⊢
    have hd : d + 3 < 12 := (Nat.pow_lt_pow_iff_right (by decide)).1 hs
    exact Nat.pow_dvd_pow 2 (Nat.le_of_lt hd)

theorem exists_mdbBuflist {size : Nat} (h : Configured size) :
    ∃ bl, mdbBuflist size = some bl ∧ bl.size = size ∧ bl.Ok ∧ bl.Filled := by
  by_cases hs : mdbAllocChunksz ≤ size
  · refine ⟨⟨size, 0⟩, if_pos hs, rfl, fun hlt => ?_, fun hlt => ?_⟩
    · exact absurd hs (Nat.not_le_of_lt hlt)
    · exact absurd hs (Nat.not_le_of_lt hlt)
  · have hlt := Nat.lt_of_not_le hs
    have hpos := h.pos
    have hfits := h.fits hlt
    obtain ⟨n, hn, -, hn0, hfit, hfull⟩ := maxFreeLoop_spec hpos hfits (mdbAllocChunksz + 1)
      (mdbAllocChunksz - size) 0 (by omega) (by omega) (.inl rfl)
    have hfirst : mdbMngSize ≤ mdbAllocChunksz - size := by
      rcases hfits with hle | ⟨q, hq⟩
      · unfold mdbMngSize mdbAllocChunksz at *
        omega
      · -- a proper divisor is at most the half
        have hq2 : 2 ≤ q := by
          rcases q with _ | _ | q
          · simp [mdbAllocChunksz] at hq
          · omega
          · omega
        have hmul : size * 2 ≤ size * q := Nat.mul_le_mul_left size hq2
        unfold mdbMngSize mdbAllocChunksz at *
        omega
    refine ⟨⟨size, n⟩, ?_, rfl, fun _ => ⟨hpos, hn0 hfirst, ?_⟩, fun _ => hfull⟩
    · rw [mdbBuflist, if_neg hs, hn]
      rfl
    · exact hfit.resolve_left (Nat.ne_of_gt (hn0 hfirst))

theorem mem_mdbAddSize {sizes : List Nat} {size s : Nat} (h : s ∈ mdbAddSize sizes size) :
    s ∈ sizes ∨ s = size := by
  rw [mdbAddSize] at h
  split at h
  · exact .inl h
  · simpa using h

theorem mdbAddSize_nodup {sizes : List Nat} (h : sizes.Nodup) (size : Nat) :
    (mdbAddSize sizes size).Nodup := by
  rw [mdbAddSize]
  split
  · exact h
  · rename_i hs
    exact List.nodup_append.2 ⟨h, List.nodup_singleton size, fun a ha b hb e => hs (by
      rw [← List.mem_singleton.1 hb, ← e]
      exact ha)⟩

/-- The sizes are configured ones, each added once. -/
theorem mdbSizes_spec (pgshifts : List Nat) :
    (mdbSizes pgshifts).Nodup ∧ ∀ size ∈ mdbSizes pgshifts, Configured size := by
  have hfold : ∀ (l : List (Nat × Nat)) (sizes : List Nat), sizes.Nodup →
      (∀ size ∈ sizes, Configured size) →
      (l.foldl (fun sizes s => mdbAddSize sizes (2 ^ (s.2 - s.1) * rootnodeSize)) sizes).Nodup ∧
        ∀ size ∈ l.foldl (fun sizes s => mdbAddSize sizes (2 ^ (s.2 - s.1) * rootnodeSize)) sizes,
          Configured size := by
    intro l
    induction l with
    | nil => exact fun _ hn hc => ⟨hn, hc⟩
    | cons s l ih =>
      refine fun sizes hn hc => ih _ (mdbAddSize_nodup hn _) fun size hsize => ?_
      rcases mem_mdbAddSize hsize with h | rfl
      · exact hc size h
      · exact .inr (.inr ⟨_, rfl⟩)
  refine hfold _ _ (mdbAddSize_nodup (mdbAddSize_nodup List.nodup_nil _) _) fun size hsize => ?_
  rcases mem_mdbAddSize hsize with h | rfl
  · rcases mem_mdbAddSize h with h | rfl
    · cases h
    · exact .inl rfl
  · exact .inr (.inl rfl)

theorem exists_mapM_mdbBuflist (sizes : List Nat) (h : ∀ size ∈ sizes, Configured size) :
    ∃ T, sizes.mapM mdbBuflist = some T ∧ T.map MdbBuflist.size = sizes ∧
      ∀ bl ∈ T, bl.Ok ∧ bl.Filled := by
  induction sizes with
  | nil => exact ⟨[], rfl, rfl, nofun⟩
  | cons size sizes ih =>
    obtain ⟨bl, hbl, hsize, hok⟩ := exists_mdbBuflist (h size (List.mem_cons_self ..))
    obtain ⟨T, hT, hsizes, hoks⟩ := ih fun s hs => h s (List.mem_cons_of_mem _ hs)
    refine ⟨bl :: T, ?_, ?_, List.forall_mem_cons.2 ⟨hok, hoks⟩⟩
    · rw [List.mapM_cons, hbl, hT]
      rfl
    · rw [List.map_cons, hsize, hsizes]

/-! ## Layouts -/

/-- The class of the frame at an address, its free list, and the pools of every class. -/
structure MdbLayout where
  frame : Nat → Option Nat
  free : Nat → List Nat
  pool : Nat → List Nat

namespace MdbState

def next (s : MdbState) (m : Nat) : Option Nat := (s.mng m).nextFreelist

def prev (s : MdbState) (m : Nat) : Option Nat := (s.mng m).prevFreelist

end MdbState

/-- The frame at `m` with the free list `F`. -/
structure MdbFrame (s : MdbState) (F : List Nat) (m k : Nat) (bl : MdbBuflist) : Prop where
  buflist : s.buflists[k]? = some bl
  small : bl.size < mdbAllocChunksz
  aligned : m % mdbAllocChunksz = 0
  bl_eq : (s.mng m).bl = k
  free : IsStack s.link (s.mng m).freelist F
  numFree : (s.mng m).numFree = F.length
  nodup : F.Nodup
  subset : ∀ b ∈ F, b ∈ bl.slots m

/-- Two chunks of memory do not overlap. -/
def Apart (c d : Nat × Nat) : Prop := c.1 + c.2 ≤ d.1 ∨ d.1 + d.2 ≤ c.1

/-- The classes are as initialised. -/
structure MdbClasses (s : MdbState) : Prop where
  ok : ∀ bl ∈ s.buflists, bl.Ok
  sizes : (s.buflists.map MdbBuflist.size).Nodup
  pos : ∀ bl ∈ s.buflists, 0 < bl.size

/-- The buffer is one of the frame at `m`, and not free. -/
def UsedIn (T : List MdbBuflist) (Λ : MdbLayout) (m b size : Nat) : Prop :=
  ∃ k bl, Λ.frame m = some k ∧ T[k]? = some bl ∧ bl.size = size ∧ b ∈ bl.slots m ∧ b ∉ Λ.free m

def InUse (T : List MdbBuflist) (Λ : MdbLayout) (b size : Nat) : Prop := ∃ m, UsedIn T Λ m b size

/-- The frames, the outstanding buffers and the chunks of `kmem`. -/
structure MdbFrames (s : MdbState) (out : List (Nat × Nat)) (Λ : MdbLayout) : Prop where
  frame {m k : Nat} : Λ.frame m = some k → ∃ bl, MdbFrame s (Λ.free m) m k bl
  small {b size : Nat} : size < mdbAllocChunksz → ((b, size) ∈ out ↔ InUse s.buflists Λ b size)
  large {b size : Nat} : mdbAllocChunksz ≤ size → (b, size) ∈ out → Λ.frame b = none
  nodup : out.Nodup
  chunks {a n : Nat} : (a, n) ∈ s.chunks ↔
    n = mdbAllocChunksz ∧ (Λ.frame a).isSome ∨ mdbAllocChunksz ≤ n ∧ (a, n) ∈ out
  apart : s.chunks.Pairwise Apart

/-- The lists of pools. -/
structure MdbPools (s : MdbState) (Λ : MdbLayout) : Prop where
  list (k : Nat) : IsDList s.next s.prev (s.listOfLists k) (Λ.pool k)
  mem {m k : Nat} : m ∈ Λ.pool k ↔ Λ.frame m = some k ∧ Λ.free m ≠ []

structure MdbRepresents (s : MdbState) (out : List (Nat × Nat)) (Λ : MdbLayout) : Prop where
  classes : MdbClasses s
  frames : MdbFrames s out Λ
  pools : MdbPools s Λ

/-- Behind the initialisation there are no frames. -/
theorem exists_mdbBuflistInit (pgshifts : List Nat) :
    ∃ s, mdbBuflistInit pgshifts = some s ∧
      s.buflists.map MdbBuflist.size = mdbSizes pgshifts ∧ (∀ bl ∈ s.buflists, bl.Filled) ∧
      MdbRepresents s [] ⟨fun _ => none, fun _ => [], fun _ => []⟩ := by
  obtain ⟨hnodup, hconf⟩ := mdbSizes_spec pgshifts
  obtain ⟨T, hT, hsizes, hok⟩ := exists_mapM_mdbBuflist _ hconf
  refine ⟨⟨T, fun _ => none, fun _ => ⟨none, 0, none, none, 0⟩, fun _ => none, []⟩, ?_, hsizes,
    fun bl hbl => (hok bl hbl).2, ?_, ?_, ?_⟩
  · rw [mdbBuflistInit, hT]
    rfl
  · refine ⟨fun bl hbl => (hok bl hbl).1, hsizes ▸ hnodup, fun bl hbl => ?_⟩
    exact (hconf _ (hsizes ▸ List.mem_map_of_mem hbl)).pos
  · refine ⟨nofun, fun _ => ⟨nofun, ?_⟩, nofun, List.nodup_nil, ⟨nofun, ?_⟩, List.Pairwise.nil⟩
    · rintro ⟨m, k, bl, ⟨⟩, -⟩
    · rintro (⟨-, ⟨⟩⟩ | ⟨-, ⟨⟩⟩)
  · exact ⟨fun _ => IsDList.nil, ⟨nofun, fun h => absurd h.1 nofun⟩⟩

/-! ## Writes -/

namespace MdbState

variable {s s' s'' : MdbState} {m k : Nat} {f : MdbMng → MdbMng} {v : Option Nat}

/-- Nothing that concerns the frames differs. -/
structure SameFrames (s s' : MdbState) : Prop where
  buflists : s'.buflists = s.buflists
  link : s'.link = s.link
  chunks : s'.chunks = s.chunks
  freelist (m : Nat) : (s'.mng m).freelist = (s.mng m).freelist
  numFree (m : Nat) : (s'.mng m).numFree = (s.mng m).numFree
  bl (m : Nat) : (s'.mng m).bl = (s.mng m).bl

/-- Nothing that concerns the lists of pools differs. -/
structure SamePools (s s' : MdbState) : Prop where
  listOfLists : s'.listOfLists = s.listOfLists
  next : s'.next = s.next
  prev : s'.prev = s.prev

theorem SameFrames.refl (s : MdbState) : SameFrames s s :=
  ⟨rfl, rfl, rfl, fun _ => rfl, fun _ => rfl, fun _ => rfl⟩

theorem SameFrames.trans (h : SameFrames s s') (h' : SameFrames s' s'') : SameFrames s s'' where
  buflists := h'.buflists.trans h.buflists
  link := h'.link.trans h.link
  chunks := h'.chunks.trans h.chunks
  freelist m := (h'.freelist m).trans (h.freelist m)
  numFree m := (h'.numFree m).trans (h.numFree m)
  bl m := (h'.bl m).trans (h.bl m)

theorem updMng_self : (s.updMng m f).mng m = f (s.mng m) := Function.update_self ..

theorem updMng_of_ne {j : Nat} (h : j ≠ m) : (s.updMng m f).mng j = s.mng j :=
  Function.update_of_ne h ..

theorem updMng_next : (s.updMng m f).next = Function.update s.next m (f (s.mng m)).nextFreelist := by
  funext j
  by_cases hj : j = m
  · subst hj
    rw [next, updMng_self, Function.update_self]
  · rw [next, updMng_of_ne hj, Function.update_of_ne hj, next]

theorem updMng_prev : (s.updMng m f).prev = Function.update s.prev m (f (s.mng m)).prevFreelist := by
  funext j
  by_cases hj : j = m
  · subst hj
    rw [prev, updMng_self, Function.update_self]
  · rw [prev, updMng_of_ne hj, Function.update_of_ne hj, prev]

theorem updMng_sameFrames (hf : ∀ x, (f x).freelist = x.freelist ∧ (f x).numFree = x.numFree ∧
    (f x).bl = x.bl) : SameFrames s (s.updMng m f) := by
  have hmng : ∀ j, (s.updMng m f).mng j = s.mng j ∨ (s.updMng m f).mng j = f (s.mng j) := by
    intro j
    by_cases hj : j = m
    · subst hj
      exact .inr updMng_self
    · exact .inl (updMng_of_ne hj)
  refine ⟨rfl, rfl, rfl, fun j => ?_, fun j => ?_, fun j => ?_⟩
  · rcases hmng j with h | h <;> rw [h]
    exact (hf _).1
  · rcases hmng j with h | h <;> rw [h]
    exact (hf _).2.1
  · rcases hmng j with h | h <;> rw [h]
    exact (hf _).2.2

theorem updMng?_sameFrames {i : Option Nat} (hf : ∀ x, (f x).freelist = x.freelist ∧
    (f x).numFree = x.numFree ∧ (f x).bl = x.bl) : SameFrames s (s.updMng? i f) := by
  cases i with
  | none => exact SameFrames.refl s
  | some m => exact updMng_sameFrames hf

theorem setList_sameFrames : SameFrames s (s.setList k v) :=
  ⟨rfl, rfl, rfl, fun _ => rfl, fun _ => rfl, fun _ => rfl⟩

theorem setList_next : (s.setList k v).next = s.next := rfl

theorem setList_prev : (s.setList k v).prev = s.prev := rfl

theorem updMng_samePools (hf : ∀ x, (f x).nextFreelist = x.nextFreelist ∧
    (f x).prevFreelist = x.prevFreelist) : SamePools s (s.updMng m f) := by
  refine ⟨rfl, ?_, ?_⟩
  · rw [updMng_next, (hf _).1]
    exact Function.update_eq_self m s.next
  · rw [updMng_prev, (hf _).2]
    exact Function.update_eq_self m s.prev

/-- A write of `prev_freelist` through a pointer. -/
theorem setPrev_next {i : Option Nat} :
    (s.updMng? i fun m => { m with prevFreelist := v }).next = s.next := by
  cases i with
  | none => rfl
  | some m =>
    rw [updMng?, updMng_next]
    exact Function.update_eq_self m s.next

theorem setPrev_prev {i : Option Nat} :
    (s.updMng? i fun m => { m with prevFreelist := v }).prev = Stack.set s.prev i v := by
  cases i with
  | none => rfl
  | some m =>
    rw [updMng?, updMng_prev]
    rfl

/-- A write of `next_freelist` through a pointer. -/
theorem setNext_next {i : Option Nat} :
    (s.updMng? i fun m => { m with nextFreelist := v }).next = Stack.set s.next i v := by
  cases i with
  | none => rfl
  | some m =>
    rw [updMng?, updMng_next]
    rfl

theorem setNext_prev {i : Option Nat} :
    (s.updMng? i fun m => { m with nextFreelist := v }).prev = s.prev := by
  cases i with
  | none => rfl
  | some m =>
    rw [updMng?, updMng_prev]
    exact Function.update_eq_self m s.prev

theorem updMng?_listOfLists {i : Option Nat} :
    (s.updMng? i f).listOfLists = s.listOfLists := by
  cases i <;> rfl

theorem updMng?_buflists {i : Option Nat} : (s.updMng? i f).buflists = s.buflists := by
  cases i <;> rfl

theorem updMng?_chunks {i : Option Nat} : (s.updMng? i f).chunks = s.chunks := by
  cases i <;> rfl

end MdbState

open MdbState

variable {s s' : MdbState} {out : List (Nat × Nat)} {Λ Λ' : MdbLayout} {F : List Nat}
  {m m' k k' a b size : Nat} {bl bl' : MdbBuflist}

theorem MdbFrame.congr (h : MdbFrame s F m k bl) (hbl : s'.buflists = s.buflists)
    (hmng : (s'.mng m).bl = (s.mng m).bl ∧ (s'.mng m).freelist = (s.mng m).freelist ∧
      (s'.mng m).numFree = (s.mng m).numFree)
    (hlink : ∀ b ∈ F, s'.link b = s.link b) : MdbFrame s' F m k bl where
  buflist := hbl ▸ h.buflist
  small := h.small
  aligned := h.aligned
  bl_eq := hmng.1.trans h.bl_eq
  free := by
    rw [hmng.2.1]
    exact h.free.congr hlink
  numFree := hmng.2.2.trans h.numFree
  nodup := h.nodup
  subset := h.subset

theorem MdbFrames.same (h : MdbFrames s out Λ) (hs : SameFrames s s') : MdbFrames s' out Λ where
  frame hm := by
    obtain ⟨bl, hbl⟩ := h.frame hm
    exact ⟨bl, hbl.congr hs.buflists ⟨hs.bl _, hs.freelist _, hs.numFree _⟩
      fun b _ => congrFun hs.link b⟩
  small hsize := by
    rw [h.small hsize, hs.buflists]
  large := h.large
  nodup := h.nodup
  chunks := by
    rw [hs.chunks]
    exact h.chunks
  apart := hs.chunks ▸ h.apart

theorem MdbPools.same (h : MdbPools s Λ) (hs : SamePools s s') : MdbPools s' Λ where
  list k := by
    rw [hs.listOfLists, hs.next, hs.prev]
    exact h.list k
  mem := h.mem

theorem MdbClasses.same (h : MdbClasses s) (hs : s'.buflists = s.buflists) : MdbClasses s' :=
  ⟨hs ▸ h.ok, hs ▸ h.sizes, hs ▸ h.pos⟩

/-- A change of the list of one class, and of the links of its frames only. -/
theorem MdbPools.update {L : List Nat} (h : MdbPools s Λ)
    (hlist : ∀ j ≠ k, s'.listOfLists j = s.listOfLists j)
    (hnext : ∀ u j, Λ.frame u = some j → j ≠ k → s'.next u = s.next u)
    (hprev : ∀ u j, Λ.frame u = some j → j ≠ k → s'.prev u = s.prev u)
    (hL : IsDList s'.next s'.prev (s'.listOfLists k) L)
    (hpool : Λ'.pool = Function.update Λ.pool k L)
    (hmem : ∀ u, u ∈ L ↔ Λ'.frame u = some k ∧ Λ'.free u ≠ [])
    (hother : ∀ u j, j ≠ k → (Λ'.frame u = some j ∧ Λ'.free u ≠ [] ↔
      Λ.frame u = some j ∧ Λ.free u ≠ [])) : MdbPools s' Λ' where
  list j := by
    rw [hpool]
    by_cases hj : j = k
    · subst hj
      rw [Function.update_self]
      exact hL
    · rw [Function.update_of_ne hj, hlist j hj]
      exact (h.list j).congr (fun u hu => hnext u j (h.mem.1 hu).1 hj)
        fun u hu => hprev u j (h.mem.1 hu).1 hj
  mem {u j} := by
    rw [hpool]
    by_cases hj : j = k
    · subst hj
      rw [Function.update_self]
      exact hmem u
    · rw [Function.update_of_ne hj, hother u j hj]
      exact h.mem

/-! ## Chunks -/

/-- A new chunk of `kmem` is aligned and apart from the others. -/
structure Fresh (s : MdbState) (a n : Nat) : Prop where
  aligned : a % mdbAllocChunksz = 0
  apart : ∀ c ∈ s.chunks, Apart (a, n) c

theorem not_apart_self {a n n' : Nat} (hn : 0 < n) (hn' : 0 < n') : ¬Apart (a, n) (a, n') := by
  rintro (h | h)
  · exact absurd h (by omega)
  · exact absurd h (by omega)

theorem MdbFrames.le_of_mem_chunks (h : MdbFrames s out Λ) {c : Nat × Nat} (hc : c ∈ s.chunks) :
    mdbAllocChunksz ≤ c.2 := by
  rcases h.chunks.1 hc with ⟨hn, -⟩ | ⟨hn, -⟩
  · exact Nat.le_of_eq hn.symm
  · exact hn

theorem MdbFrames.chunks_nodup (h : MdbFrames s out Λ) : s.chunks.Nodup := by
  refine h.apart.imp_of_mem fun {c d} hc _ hap hcd => ?_
  subst hcd
  have hpos : 0 < c.2 := Nat.lt_of_lt_of_le (by decide) (h.le_of_mem_chunks hc)
  exact not_apart_self hpos hpos hap

/-- The frames do not depend on the chunks. -/
theorem MdbFrames.frame_chunks (h : MdbFrames s out Λ) {c : List (Nat × Nat)}
    (hm : Λ.frame m = some k) :
    ∃ bl, MdbFrame { s with chunks := c } (Λ.free m) m k bl := by
  obtain ⟨bl, hbl⟩ := h.frame hm
  exact ⟨bl, hbl.congr rfl ⟨rfl, rfl, rfl⟩ fun _ _ => rfl⟩

/-- Nothing is known of a new chunk. -/
theorem MdbFrames.fresh (h : MdbFrames s out Λ) {n : Nat} (hn : mdbAllocChunksz ≤ n)
    (hf : Fresh s a n) : Λ.frame a = none ∧ ∀ z, mdbAllocChunksz ≤ z → (a, z) ∉ out := by
  have hmem : ∀ z, (a, z) ∉ s.chunks := by
    intro z hz
    have hpos : 0 < mdbAllocChunksz := by decide
    exact not_apart_self (Nat.lt_of_lt_of_le hpos hn)
      (Nat.lt_of_lt_of_le hpos (h.le_of_mem_chunks hz)) (hf.apart _ hz)
  refine ⟨?_, fun z hz hout => hmem z (h.chunks.2 (.inr ⟨hz, hout⟩))⟩
  cases hfr : Λ.frame a with
  | none => rfl
  | some k => exact absurd (h.chunks.2 (.inl ⟨rfl, by rw [hfr]; rfl⟩)) (hmem _)

/-- A large buffer is a chunk. -/
theorem MdbFrames.allocLarge (h : MdbFrames s out Λ) (hsize : mdbAllocChunksz ≤ size)
    (hf : Fresh s a size) : MdbFrames (s.kmemAlloc a size) ((a, size) :: out) Λ := by
  obtain ⟨hnone, hout⟩ := h.fresh hsize hf
  refine ⟨h.frame_chunks, fun {b z} hz => ?_, fun {b z} hz hb => ?_, ?_, fun {b n} => ?_, ?_⟩
  · rw [List.mem_cons]
    refine ⟨fun hb => (h.small hz).1 (hb.resolve_left ?_), fun hb => .inr ((h.small hz).2 hb)⟩
    rintro ⟨⟩
    exact absurd hsize (Nat.not_le_of_lt hz)
  · rcases List.mem_cons.1 hb with hb | hb
    · cases hb
      exact hnone
    · exact h.large hz hb
  · exact List.nodup_cons.2 ⟨hout size hsize, h.nodup⟩
  · rw [kmemAlloc, List.mem_cons, List.mem_cons, h.chunks]
    constructor
    · rintro (hb | hb | ⟨hn, hb⟩)
      · cases hb
        exact .inr ⟨hsize, .inl rfl⟩
      · exact .inl hb
      · exact .inr ⟨hn, .inr hb⟩
    · rintro (hb | ⟨hn, hb | hb⟩)
      · exact .inr (.inl hb)
      · exact .inl hb
      · exact .inr (.inr ⟨hn, hb⟩)
  · exact List.pairwise_cons.2 ⟨hf.apart, h.apart⟩

theorem MdbFrames.freeLarge (h : MdbFrames s out Λ) (hsize : mdbAllocChunksz ≤ size)
    (hout : (a, size) ∈ out) : MdbFrames (s.kmemFree a size) (out.erase (a, size)) Λ := by
  have hnone := h.large hsize hout
  refine ⟨h.frame_chunks, fun {b z} hz => ?_,
    fun {b z} hz hb => h.large hz (List.mem_of_mem_erase hb), h.nodup.erase _, fun {b n} => ?_, h.apart.sublist List.erase_sublist⟩
  · rw [h.nodup.mem_erase_iff]
    refine ⟨fun hb => (h.small hz).1 hb.2, fun hb => ⟨?_, (h.small hz).2 hb⟩⟩
    rintro ⟨⟩
    exact absurd hsize (Nat.not_le_of_lt hz)
  · rw [kmemFree, h.chunks_nodup.mem_erase_iff, h.nodup.mem_erase_iff, h.chunks]
    constructor
    · rintro ⟨hne, hb | hb⟩
      · exact .inl hb
      · exact .inr ⟨hb.1, hne, hb.2⟩
    · rintro (hb | ⟨hn, hne, hb⟩)
      · refine ⟨?_, .inl hb⟩
        rintro ⟨⟩
        rw [hnone] at hb
        exact absurd hb.2 Bool.false_ne_true
      · exact ⟨hne, .inr ⟨hn, hb⟩⟩

/-! ## Changes of one frame -/

namespace MdbLayout

/-- The layout with the frame `m`, in which `F` is free. -/
def setFrame (Λ : MdbLayout) (m k : Nat) (F : List Nat) : MdbLayout :=
  { Λ with frame := Function.update Λ.frame m (some k), free := Function.update Λ.free m F }

/-- The layout with the pools `L` for the class `k`. -/
def setPool (Λ : MdbLayout) (k : Nat) (L : List Nat) : MdbLayout :=
  { Λ with pool := Function.update Λ.pool k L }

/-- The layout without the frame `m`. -/
def dropFrame (Λ : MdbLayout) (m : Nat) : MdbLayout :=
  { Λ with frame := Function.update Λ.frame m none }

theorem dropFrame_frame_self : (Λ.dropFrame m).frame m = none := Function.update_self ..

theorem dropFrame_frame_of_ne (h : m' ≠ m) : (Λ.dropFrame m).frame m' = Λ.frame m' :=
  Function.update_of_ne h ..

theorem setPool_frame {L : List Nat} : (Λ.setPool k L).frame = Λ.frame := rfl

theorem setPool_free {L : List Nat} : (Λ.setPool k L).free = Λ.free := rfl

theorem setFrame_frame_self : (Λ.setFrame m k F).frame m = some k := Function.update_self ..

theorem setFrame_frame_of_ne (h : m' ≠ m) : (Λ.setFrame m k F).frame m' = Λ.frame m' :=
  Function.update_of_ne h ..

theorem setFrame_free_self : (Λ.setFrame m k F).free m = F := Function.update_self ..

theorem setFrame_free_of_ne (h : m' ≠ m) : (Λ.setFrame m k F).free m' = Λ.free m' :=
  Function.update_of_ne h ..

/-- A buffer of the frame `m` was taken. -/
structure Taken (Λ Λ' : MdbLayout) (m : Nat) : Prop where
  frame : Λ'.frame = Λ.frame
  free : ∀ u, u ≠ m → Λ'.free u = Λ.free u
  length : (Λ'.free m).length < (Λ.free m).length

theorem frame_setFrame (hm : Λ.frame m = some k) : (Λ.setFrame m k F).frame = Λ.frame := by
  rw [setFrame, ← hm, Function.update_eq_self]

theorem taken_setFrame {b : Nat} (hm : Λ.frame m = some k) (hfree : Λ.free m = b :: F) :
    Taken Λ (Λ.setFrame m k F) m where
  frame := frame_setFrame hm
  free _ hu := setFrame_free_of_ne hu
  length := by
    rw [setFrame_free_self, hfree]
    exact Nat.lt_succ_self _

/-- The frames of the classes with room for more than one buffer have a buffer in use. -/
def Lent (T : List MdbBuflist) (Λ : MdbLayout) : Prop :=
  ∀ m k bl, Λ.frame m = some k → T[k]? = some bl → bl.maxFree ≠ 1 →
    (Λ.free m).length < bl.maxFree

theorem Lent.taken {T : List MdbBuflist} {Λ' : MdbLayout} (h : Λ.Lent T) (ht : Taken Λ Λ' m) :
    Λ'.Lent T := by
  intro u k bl hu hbl hmax
  rw [ht.frame] at hu
  have hlt := h u k bl hu hbl hmax
  by_cases hum : u = m
  · subst hum
    exact Nat.lt_trans ht.length hlt
  · rwa [ht.free u hum]

/-- The frame `m` is new or has changed. -/
theorem Lent.of_ne {T : List MdbBuflist} {Λ' : MdbLayout} (h : Λ.Lent T)
    (hframe : ∀ {u j}, Λ'.frame u = some j → u ≠ m → Λ.frame u = some j)
    (hfree : ∀ u, u ≠ m → Λ'.free u = Λ.free u)
    (hm : ∀ {k bl}, Λ'.frame m = some k → T[k]? = some bl → bl.maxFree ≠ 1 →
      (Λ'.free m).length < bl.maxFree) : Λ'.Lent T := by
  intro u k bl hu hbl hmax
  by_cases hum : u = m
  · subst hum
    exact hm hu hbl hmax
  · rw [hfree u hum]
    exact h u k bl (hframe hu hum) hbl hmax

/-- There is no new frame, and those of the classes with room for one buffer stay. -/
structure Keeps (T : List MdbBuflist) (Λ Λ' : MdbLayout) : Prop where
  frame : ∀ u j, Λ'.frame u = some j → Λ.frame u = some j
  single : ∀ u j bl, Λ.frame u = some j → T[j]? = some bl → bl.maxFree = 1 → Λ'.frame u = some j

section

variable {T : List MdbBuflist} {Λ' : MdbLayout} {L : List Nat}

theorem Lent.setPool (h : Λ.Lent T) : (Λ.setPool k L).Lent T := h

theorem Keeps.setPool (h : Keeps T Λ Λ') : Keeps T Λ (Λ'.setPool k L) := ⟨h.frame, h.single⟩

/-- A buffer of the frame `m` was freed, and another one is still in use. -/
theorem Lent.push {b : Nat} (h : Λ.Lent T) (hm : Λ.frame m = some k) (hbl : T[k]? = some bl)
    (hlen : bl.maxFree = 1 ∨ (b :: Λ.free m).length ≠ bl.maxFree) :
    (Λ.setFrame m k (b :: Λ.free m)).Lent T := by
  refine h.of_ne (m := m) (fun hu hne => (setFrame_frame_of_ne hne).symm.trans hu)
    (fun u hu => setFrame_free_of_ne hu) fun {j bl'} hj hbl' hmax => ?_
  cases setFrame_frame_self.symm.trans hj
  cases hbl.symm.trans hbl'
  have hlt := h m k bl hm hbl hmax
  have hne := hlen.resolve_left hmax
  rw [setFrame_free_self]
  rw [List.length_cons] at hne ⊢
  omega

/-- The frame `m` is given back. -/
theorem Lent.drop (h : Λ.Lent T) : ((Λ.setFrame m k F).dropFrame m).Lent T := by
  refine h.of_ne (m := m) (fun hu hne => ?_) (fun u hu => setFrame_free_of_ne (k := k) hu)
    fun hm => ?_
  · rw [dropFrame_frame_of_ne hne] at hu
    exact (setFrame_frame_of_ne hne).symm.trans hu
  · cases dropFrame_frame_self.symm.trans hm

theorem keeps_setFrame (hm : Λ.frame m = some k) : Keeps T Λ (Λ.setFrame m k F) := by
  refine ⟨fun u j hu => ?_, fun u j bl' hu _ _ => ?_⟩
  · rwa [frame_setFrame hm] at hu
  · rwa [frame_setFrame hm]

theorem keeps_drop (hm : Λ.frame m = some k) (hbl : T[k]? = some bl) (hmax : bl.maxFree ≠ 1) :
    Keeps T Λ ((Λ.setFrame m k F).dropFrame m) := by
  have hne : ∀ u, u ≠ m → ((Λ.setFrame m k F).dropFrame m).frame u = Λ.frame u := fun u hum =>
    (dropFrame_frame_of_ne hum).trans (setFrame_frame_of_ne hum)
  refine ⟨fun u j hu => ?_, fun u j bl' hu hbl' hone => ?_⟩
  · by_cases hum : u = m
    · subst hum
      cases dropFrame_frame_self.symm.trans hu
    · exact (hne u hum).symm.trans hu
  · by_cases hum : u = m
    · subst hum
      cases hm.symm.trans hu
      cases hbl.symm.trans hbl'
      exact absurd hone hmax
    · exact (hne u hum).trans hu

end

end MdbLayout

variable {T : List MdbBuflist}

theorem inUse_iff (m : Nat) :
    InUse T Λ b size ↔ UsedIn T Λ m b size ∨ ∃ m' ≠ m, UsedIn T Λ m' b size := by
  constructor
  · rintro ⟨m', h⟩
    by_cases hm : m' = m
    · exact .inl (hm ▸ h)
    · exact .inr ⟨m', hm, h⟩
  · rintro (h | ⟨m', -, h⟩)
    · exact ⟨m, h⟩
    · exact ⟨m', h⟩

theorem usedIn_iff (hfr : Λ.frame m = some k) (hbl : T[k]? = some bl) :
    UsedIn T Λ m b size ↔ bl.size = size ∧ b ∈ bl.slots m ∧ b ∉ Λ.free m := by
  constructor
  · rintro ⟨k', bl', hk, hbl', h⟩
    cases hfr.symm.trans hk
    cases hbl.symm.trans hbl'
    exact h
  · exact fun h => ⟨k, bl, hfr, hbl, h⟩

theorem inUse_setFrame_iff (hbl : T[k]? = some bl) :
    InUse T (Λ.setFrame m k F) b size ↔
      (bl.size = size ∧ b ∈ bl.slots m ∧ b ∉ F) ∨ ∃ m' ≠ m, UsedIn T Λ m' b size := by
  rw [inUse_iff m, usedIn_iff MdbLayout.setFrame_frame_self hbl, MdbLayout.setFrame_free_self]
  refine or_congr_right (exists_congr fun m' => and_congr_right fun hm => ?_)
  rw [UsedIn, UsedIn, MdbLayout.setFrame_frame_of_ne hm, MdbLayout.setFrame_free_of_ne hm]

/-- A buffer lies in its frame. -/
theorem MdbFrame.slot_frame (h : MdbFrame s F m k bl) (hc : MdbClasses s) (hb : b ∈ bl.slots m) :
    b / mdbAllocChunksz * mdbAllocChunksz = m :=
  (hc.ok bl (List.mem_of_getElem? h.buflist)).slot_frame h.small h.aligned hb

/-! ## A new pool -/

/-- The addresses of `n` buffers from `b` on. -/
def bufferRun (size b n : Nat) : List Nat := (List.range n).map fun j => b + j * size

theorem bufferRun_succ (size b n : Nat) :
    bufferRun size b (n + 1) = b :: bufferRun size (b + size) n := by
  rw [bufferRun, List.range_succ_eq_map, List.map_cons, List.map_map, Nat.zero_mul]
  congr 1
  refine List.map_congr_left fun j _ => ?_
  rw [Function.comp_apply, Nat.succ_mul]
  omega

theorem linkBuffers_spec (ed : Nat) (hpos : 0 < size) (n fuel b : Nat) (link : Nat → Option Nat)
    (hed : b + n * size = ed + size) (hfuel : n < fuel) :
    ∃ link', linkBuffers size ed fuel b link = (link', ed + size) ∧
      (∀ u ∉ bufferRun size b n, link' u = link u) ∧
      Seg link' (some b) (bufferRun size b n) (some (ed + size)) := by
  induction n generalizing fuel b link with
  | zero =>
    obtain ⟨fuel, rfl⟩ := Nat.exists_eq_add_one_of_ne_zero (Nat.ne_of_gt hfuel)
    rw [Nat.zero_mul, Nat.add_zero] at hed
    refine ⟨link, ?_, fun _ _ => rfl, congrArg some hed⟩
    rw [linkBuffers, if_neg (by omega), hed]
  | succ n ih =>
    obtain ⟨fuel, rfl⟩ := Nat.exists_eq_add_one_of_ne_zero (Nat.ne_of_gt (Nat.zero_lt_of_lt hfuel))
    rw [Nat.succ_mul] at hed
    have hle : b ≤ ed := by
      have := Nat.zero_le (n * size)
      omega
    obtain ⟨link', hrun, hframe, hseg⟩ := ih fuel (b + size)
      (Function.update link b (some (b + size))) (by omega) (by omega)
    have hb : b ∉ bufferRun size (b + size) n := by
      intro hb
      obtain ⟨j, -, hj⟩ := List.mem_map.1 hb
      omega
    rw [bufferRun_succ]
    refine ⟨link', ?_, fun u hu => ?_, rfl, ?_⟩
    · rw [linkBuffers, if_pos hle, hrun]
    · obtain ⟨hne, hu⟩ := not_or.1 fun h => hu (List.mem_cons.2 h)
      rw [hframe u hu, Function.update_of_ne hne]
    · rw [hframe b hb, Function.update_self]
      exact hseg

/-- The loop of `mdb_alloc_buffer` makes a free list of all of the buffers. -/
theorem newPool_links (hok : bl.Ok) (hs : bl.size < mdbAllocChunksz) (link : Nat → Option Nat) :
    ∃ link' b, linkBuffers bl.size (a + mdbAllocChunksz - bl.size) (mdbAllocChunksz + 1)
        (bl.first a) link = (link', b) ∧
      IsStack (Function.update link' (b - bl.size) none) (some (bl.first a)) (bl.slots a) ∧
      ∀ u ∉ bl.slots a, Function.update link' (b - bl.size) none u = link u := by
  obtain ⟨hpos, hmax, hfit⟩ := hok hs
  obtain ⟨n, hn⟩ := Nat.exists_eq_add_one_of_ne_zero (Nat.ne_of_gt hmax)
  have hn' : bl.maxFree ≤ mdbAllocChunksz := by
    have := Nat.le_mul_of_pos_right bl.maxFree hpos
    omega
  obtain ⟨link', hrun, hframe, hseg⟩ := linkBuffers_spec (a + mdbAllocChunksz - bl.size)
    hpos bl.maxFree (mdbAllocChunksz + 1) (bl.first a) link (by unfold MdbBuflist.first; omega)
    (by omega)
  have hlast : a + mdbAllocChunksz - bl.size + bl.size - bl.size = bl.first a + n * bl.size := by
    rw [hn, Nat.succ_mul] at hfit
    rw [MdbBuflist.first, hn, Nat.succ_mul]
    omega
  have hslots : bl.slots a = (List.range n).map (fun j => bl.first a + j * bl.size) ++
      [bl.first a + n * bl.size] := by
    rw [MdbBuflist.slots, hn, List.range_succ, List.map_append]
    rfl
  refine ⟨link', _, hrun, ?_, fun u hu => ?_⟩
  · have hnodup : (bl.slots a).Nodup := MdbBuflist.slots_nodup hpos
    change Seg link' _ (bl.slots a) _ at hseg
    rw [hslots] at hseg hnodup ⊢
    rw [hlast]
    refine hseg.setNext (fun hm => ?_) none
    exact (List.nodup_append.1 hnodup).2.2 _ hm _ (List.mem_singleton_self _) rfl
  · rw [Function.update_of_ne, hframe u hu]
    rintro rfl
    refine hu ?_
    rw [hlast, hslots]
    exact List.mem_append_right _ (List.mem_singleton_self _)

/-- What remains of `newPool` if the class has no pool. -/
theorem newPool_eq {link' : Nat → Option Nat} (hnone : s.listOfLists k = none)
    (hrun : linkBuffers bl.size (a + mdbAllocChunksz - bl.size) (mdbAllocChunksz + 1) (bl.first a)
      s.link = (link', b)) :
    s.newPool k bl a = { s with
      mng := Function.update s.mng a ⟨some (bl.first a), bl.maxFree, none, none, k⟩
      link := Function.update link' (b - bl.size) none
      listOfLists := Function.update s.listOfLists k (some a)
      chunks := (a, mdbAllocChunksz) :: s.chunks } := by
  unfold MdbBuflist.first at hrun
  simp only [newPool, kmemAlloc, updMng, setList, hrun, hnone, Function.update_self,
    Function.update_idem, updMng?, MdbBuflist.first]

/-- The frame at `m` is new, and all of it is free. -/
theorem MdbFrames.newPool (h : MdbFrames s out Λ) (hc : MdbClasses s)
    (hclass : s.buflists[k]? = some bl) (hs : bl.size < mdbAllocChunksz)
    (hnone : s.listOfLists k = none) (hf : Fresh s a mdbAllocChunksz) :
    MdbFrames (s.newPool k bl a) out (Λ.setFrame a k (bl.slots a)) := by
  have hok := hc.ok bl (List.mem_of_getElem? hclass)
  obtain ⟨link', b, hrun, hstack, hlink⟩ := newPool_links (a := a) hok hs s.link
  obtain ⟨hpos, -, -⟩ := hok hs
  obtain ⟨hfr, hlarge⟩ := h.fresh (Nat.le_refl _) hf
  rw [newPool_eq hnone hrun]
  refine ⟨fun {m j} hm => ?_, fun {b z} hz => ?_, fun {b z} hz hb => ?_, h.nodup,
    fun {b n} => ?_, List.pairwise_cons.2 ⟨hf.apart, h.apart⟩⟩
  · by_cases hma : m = a
    · subst hma
      rw [MdbLayout.setFrame_frame_self] at hm
      cases hm
      refine ⟨bl, hclass, hs, hf.aligned, ?_, ?_, ?_, ?_, fun b hb => ?_⟩
      · simp only [Function.update_self]
      · simp only [MdbLayout.setFrame_free_self, Function.update_self]
        exact hstack
      · simp only [MdbLayout.setFrame_free_self, Function.update_self, MdbBuflist.length_slots]
      · rw [MdbLayout.setFrame_free_self]
        exact MdbBuflist.slots_nodup hpos
      · rwa [MdbLayout.setFrame_free_self] at hb
    · rw [MdbLayout.setFrame_frame_of_ne hma] at hm
      obtain ⟨bl', hbl'⟩ := h.frame hm
      refine ⟨bl', ?_⟩
      rw [MdbLayout.setFrame_free_of_ne hma]
      refine hbl'.congr rfl ?_ fun u hu => hlink u fun hua => hma ?_
      · simp only [Function.update_of_ne hma, and_self]
      · exact (hbl'.slot_frame hc (hbl'.subset u hu)).symm.trans
          (hok.slot_frame hs hf.aligned hua)
  · rw [h.small hz, inUse_setFrame_iff hclass, inUse_iff a]
    refine or_congr_left ⟨fun hb => ?_, fun hb => absurd hb.2.1 hb.2.2⟩
    obtain ⟨j, bl', hj, -⟩ := hb
    rw [hfr] at hj
    cases hj
  · have hba : b ≠ a := by
      rintro rfl
      exact hlarge z hz hb
    rw [MdbLayout.setFrame_frame_of_ne hba]
    exact h.large hz hb
  · rw [List.mem_cons, h.chunks]
    by_cases hba : b = a
    · subst hba
      rw [MdbLayout.setFrame_frame_self, hfr]
      constructor
      · rintro (hb | ⟨-, ⟨⟩⟩ | ⟨hn, hb⟩)
        · cases hb
          exact .inl ⟨rfl, rfl⟩
        · exact absurd hb (hlarge n hn)
      · rintro (⟨rfl, -⟩ | ⟨hn, hb⟩)
        · exact .inl rfl
        · exact absurd hb (hlarge n hn)
    · rw [MdbLayout.setFrame_frame_of_ne hba]
      refine ⟨fun hb => hb.resolve_left ?_, .inr⟩
      rintro ⟨⟩
      exact hba rfl

theorem MdbPools.newPool (h : MdbPools s Λ) (hnone : s.listOfLists k = none)
    (hfr : Λ.frame a = none) (hok : bl.Ok) (hs : bl.size < mdbAllocChunksz) :
    MdbPools (s.newPool k bl a) ((Λ.setFrame a k (bl.slots a)).setPool k [a]) := by
  obtain ⟨link', b, hrun, -, -⟩ := newPool_links (a := a) hok hs s.link
  obtain ⟨-, hmax, -⟩ := hok hs
  have hpool : Λ.pool k = [] := by
    rw [← List.head?_eq_none_iff, ← (h.list k).head_eq, hnone]
  have hne : bl.slots a ≠ [] := by
    rw [← List.length_pos_iff, MdbBuflist.length_slots]
    exact hmax
  rw [newPool_eq hnone hrun]
  refine h.update (k := k) (L := [a]) (fun j hj => Function.update_of_ne hj ..)
    (fun u j hu _ => ?_) (fun u j hu _ => ?_) ?_ rfl (fun u => ?_) fun u j hj => ?_
  · have hua : u ≠ a := by
      rintro rfl
      cases hfr.symm.trans hu
    simp only [MdbState.next, Function.update_of_ne hua]
  · have hua : u ≠ a := by
      rintro rfl
      cases hfr.symm.trans hu
    simp only [MdbState.prev, Function.update_of_ne hua]
  · refine ⟨⟨Function.update_self .., ?_, ?_⟩, List.nodup_singleton a⟩
    · simp only [MdbState.prev, Function.update_self]
    · simp only [MdbState.next, Function.update_self, DSeg]
  · rw [List.mem_singleton, MdbLayout.setPool_frame, MdbLayout.setPool_free]
    by_cases hua : u = a
    · subst hua
      rw [MdbLayout.setFrame_frame_self, MdbLayout.setFrame_free_self]
      exact ⟨fun _ => ⟨rfl, hne⟩, fun _ => rfl⟩
    · rw [MdbLayout.setFrame_frame_of_ne hua, MdbLayout.setFrame_free_of_ne hua, ← h.mem, hpool]
      exact ⟨fun hu => absurd hu hua, fun hu => by cases hu⟩
  · rw [MdbLayout.setPool_frame, MdbLayout.setPool_free]
    by_cases hua : u = a
    · subst hua
      rw [MdbLayout.setFrame_frame_self, hfr]
      refine ⟨fun hu => absurd (Option.some.inj hu.1).symm hj, fun hu => by cases hu.1⟩
    · rw [MdbLayout.setFrame_frame_of_ne hua, MdbLayout.setFrame_free_of_ne hua]

/-! ## Buffers of a frame -/

theorem MdbFrames.buflist (h : MdbFrames s out Λ) (hm : Λ.frame m = some k)
    (hbl : s.buflists[k]? = some bl) : MdbFrame s (Λ.free m) m k bl := by
  obtain ⟨bl', hf⟩ := h.frame hm
  cases hbl.symm.trans hf.buflist
  exact hf

/-- A buffer of a frame is used in this frame only. -/
theorem MdbFrames.eq_of_usedIn (h : MdbFrames s out Λ) (hc : MdbClasses s)
    (hm : Λ.frame m = some k) (hbl : s.buflists[k]? = some bl) (hb : b ∈ bl.slots m)
    (hu : UsedIn s.buflists Λ m' b size) : m' = m := by
  obtain ⟨k', bl', hm', hbl', -, hb', -⟩ := hu
  exact ((h.buflist hm' hbl').slot_frame hc hb').symm.trans ((h.buflist hm hbl).slot_frame hc hb)

theorem MdbFrames.mem_out_iff (h : MdbFrames s out Λ) (hc : MdbClasses s)
    (hm : Λ.frame m = some k) (hbl : s.buflists[k]? = some bl) (hb : b ∈ bl.slots m) :
    (b, bl.size) ∈ out ↔ b ∉ Λ.free m := by
  rw [h.small (h.buflist hm hbl).small]
  constructor
  · rintro ⟨m', hu⟩
    cases h.eq_of_usedIn hc hm hbl hb hu
    exact ((usedIn_iff hm hbl).1 hu).2.2
  · exact fun hb' => ⟨m, (usedIn_iff hm hbl).2 ⟨rfl, hb, hb'⟩⟩

/-- The free list of one frame changes. -/
theorem MdbFrames.setFree {out' : List (Nat × Nat)} (h : MdbFrames s out Λ) (hc : MdbClasses s)
    (hm : Λ.frame m = some k) (hbl : s.buflists[k]? = some bl) (hnew : MdbFrame s' F m k bl)
    (hbuflists : s'.buflists = s.buflists) (hchunks : s'.chunks = s.chunks)
    (hmng : ∀ u ≠ m, s'.mng u = s.mng u) (hlink : ∀ u ∉ bl.slots m, s'.link u = s.link u)
    (hin : ∀ x ∈ bl.slots m, (x, bl.size) ∈ out' ↔ x ∉ F)
    (hother : ∀ x z, ¬(bl.size = z ∧ x ∈ bl.slots m) → ((x, z) ∈ out' ↔ (x, z) ∈ out))
    (hnodup : out'.Nodup) : MdbFrames s' out' (Λ.setFrame m k F) := by
  have hf := h.buflist hm hbl
  have hframe : ∀ u, (Λ.setFrame m k F).frame u = Λ.frame u := by
    intro u
    by_cases hu : u = m
    · subst hu
      exact MdbLayout.setFrame_frame_self.trans hm.symm
    · exact MdbLayout.setFrame_frame_of_ne hu
  have hlarge : ∀ x z, mdbAllocChunksz ≤ z → ((x, z) ∈ out' ↔ (x, z) ∈ out) := by
    refine fun x z hz => hother x z fun e => ?_
    exact absurd (e.1 ▸ hz) (Nat.not_le_of_lt hf.small)
  refine ⟨fun {u j} hu => ?_, fun {x z} hz => ?_, fun {x z} hz hx => ?_, hnodup,
    fun {x n} => ?_, hchunks ▸ h.apart⟩
  · rw [hframe] at hu
    by_cases hum : u = m
    · subst hum
      cases hm.symm.trans hu
      rw [MdbLayout.setFrame_free_self]
      exact ⟨bl, hnew⟩
    · obtain ⟨bl', hf'⟩ := h.frame hu
      rw [MdbLayout.setFrame_free_of_ne hum]
      refine ⟨bl', hf'.congr hbuflists ?_ fun b hb => hlink b fun hb' => hum ?_⟩
      · simp only [hmng u hum, and_self]
      · exact (hf'.slot_frame hc (hf'.subset b hb)).symm.trans (hf.slot_frame hc hb')
  · rw [hbuflists, inUse_setFrame_iff hbl]
    by_cases hx : bl.size = z ∧ x ∈ bl.slots m
    · obtain ⟨rfl, hx⟩ := hx
      rw [hin x hx]
      refine ⟨fun hxF => .inl ⟨rfl, hx, hxF⟩, ?_⟩
      rintro (⟨-, -, hxF⟩ | ⟨m', hne, hu⟩)
      · exact hxF
      · exact absurd (h.eq_of_usedIn hc hm hbl hx hu) hne
    · rw [hother x z hx, h.small hz, inUse_iff m, usedIn_iff hm hbl]
      refine or_congr_left ⟨fun hb => absurd ⟨hb.1, hb.2.1⟩ hx, fun hb => absurd ⟨hb.1, hb.2.1⟩ hx⟩
  · rw [hframe]
    exact h.large hz ((hlarge x z hz).1 hx)
  · rw [hchunks, h.chunks, hframe]
    exact or_congr_right (and_congr_right fun hn => (hlarge x n hn).symm)

/-! ## Allocation -/

/-- The frames do not depend on the pools. -/
theorem MdbFrames.setPool {L : List Nat} (h : MdbFrames s out Λ) :
    MdbFrames s out (Λ.setPool k L) :=
  ⟨h.frame, h.small, h.large, h.nodup, h.chunks, h.apart⟩

/-- The list of a frame is changed, but not whether it is among the pools. -/
theorem MdbPools.setFree (h : MdbPools s Λ) (hm : Λ.frame m = some k)
    (hF : F ≠ [] ↔ Λ.free m ≠ []) : MdbPools s (Λ.setFrame m k F) where
  list := h.list
  mem {u j} := by
    refine h.mem.trans ?_
    by_cases hu : u = m
    · subst hu
      rw [MdbLayout.setFrame_frame_self, MdbLayout.setFrame_free_self, hm, hF]
    · rw [MdbLayout.setFrame_frame_of_ne hu, MdbLayout.setFrame_free_of_ne hu]

/-- The frame at `m` enters or leaves the pools of its class. -/
theorem MdbPools.setPool {L : List Nat} (h : MdbPools s Λ) (hm : Λ.frame m = some k)
    (hlist : ∀ j ≠ k, s'.listOfLists j = s.listOfLists j)
    (hnext : ∀ u j, Λ.frame u = some j → j ≠ k → s'.next u = s.next u)
    (hprev : ∀ u j, Λ.frame u = some j → j ≠ k → s'.prev u = s.prev u)
    (hL : IsDList s'.next s'.prev (s'.listOfLists k) L)
    (hmem : ∀ u ≠ m, u ∈ L ↔ u ∈ Λ.pool k) (hmL : m ∈ L ↔ F ≠ []) :
    MdbPools s' ((Λ.setFrame m k F).setPool k L) := by
  refine h.update hlist hnext hprev hL rfl (fun u => ?_) fun u j hj => ?_
  · rw [MdbLayout.setPool_frame, MdbLayout.setPool_free]
    by_cases hu : u = m
    · subst hu
      rw [MdbLayout.setFrame_frame_self, MdbLayout.setFrame_free_self, hmL]
      exact ⟨fun hne => ⟨rfl, hne⟩, fun hne => hne.2⟩
    · rw [MdbLayout.setFrame_frame_of_ne hu, MdbLayout.setFrame_free_of_ne hu, hmem u hu, h.mem]
  · rw [MdbLayout.setPool_frame, MdbLayout.setPool_free]
    by_cases hu : u = m
    · subst hu
      rw [MdbLayout.setFrame_frame_self, hm]
      exact ⟨fun h => absurd (Option.some.inj h.1).symm hj,
        fun h => absurd (Option.some.inj h.1).symm hj⟩
    · rw [MdbLayout.setFrame_frame_of_ne hu, MdbLayout.setFrame_free_of_ne hu]

/-- The first step of `takeBuffer`. -/
theorem MdbFrames.take (h : MdbFrames s out Λ) (hc : MdbClasses s) (hm : Λ.frame m = some k)
    (hbl : s.buflists[k]? = some bl) (hfree : Λ.free m = b :: F) :
    MdbFrames (s.updMng m fun x => { x with freelist := s.link b, numFree := x.numFree - 1 })
      ((b, bl.size) :: out) (Λ.setFrame m k F) := by
  have hf := h.buflist hm hbl
  rw [hfree] at hf
  obtain ⟨hbF, hF⟩ := List.nodup_cons.1 hf.nodup
  have hb : b ∈ bl.slots m := hf.subset b (List.mem_cons_self ..)
  refine h.setFree hc hm hbl ⟨hbl, hf.small, hf.aligned, ?_, ?_, ?_, hF, ?_⟩ rfl rfl
    (fun u hu => updMng_of_ne hu) (fun _ _ => rfl) (fun x hx => ?_) (fun x z hxz => ?_) ?_
  · rw [updMng_self]
    exact hf.bl_eq
  · rw [updMng_self]
    exact hf.free.2
  · rw [updMng_self, hf.numFree]
    rfl
  · exact fun x hx => hf.subset x (List.mem_cons_of_mem _ hx)
  · rw [List.mem_cons, Prod.mk.injEq, h.mem_out_iff hc hm hbl hx, hfree, List.mem_cons]
    by_cases hxb : x = b
    · subst hxb
      exact ⟨fun _ => hbF, fun _ => .inl ⟨rfl, rfl⟩⟩
    · simp only [hxb, false_and, false_or]
  · rw [List.mem_cons]
    refine ⟨fun hx => hx.resolve_left ?_, .inr⟩
    rintro ⟨⟩
    exact hxz ⟨rfl, hb⟩
  · refine List.nodup_cons.2 ⟨?_, h.nodup⟩
    rw [h.mem_out_iff hc hm hbl hb, hfree]
    exact fun hn => hn (List.mem_cons_self ..)

theorem takeBuffer_spec (h : MdbFrames s out Λ) (hp : MdbPools s Λ) (hc : MdbClasses s)
    (hbl : s.buflists[k]? = some bl) (hhead : s.listOfLists k = some m) :
    ∃ s' Λ' b, s.takeBuffer k m = some (s', b) ∧ s'.buflists = s.buflists ∧
      s'.chunks = s.chunks ∧ MdbFrames s' ((b, bl.size) :: out) Λ' ∧ MdbPools s' Λ' ∧
      MdbLayout.Taken Λ Λ' m := by
  obtain ⟨P, hpool⟩ : ∃ P, Λ.pool k = m :: P := by
    have hlist := hp.list k
    rw [hhead] at hlist
    obtain ⟨P, hP⟩ := List.head?_eq_some_iff.1 hlist.head_eq.symm
    exact ⟨P, hP⟩
  obtain ⟨hm, hne⟩ := hp.mem.1 (hpool ▸ List.mem_cons_self .. : m ∈ Λ.pool k)
  obtain ⟨b, F, hfree⟩ := List.exists_cons_of_ne_nil hne
  have hf := h.buflist hm hbl
  rw [hfree] at hf
  have hframes := h.take hc hm hbl hfree
  have hpools : MdbPools (s.updMng m fun x => { x with
      freelist := s.link b, numFree := x.numFree - 1 }) Λ :=
    hp.same (updMng_samePools fun _ => ⟨rfl, rfl⟩)
  have hrun : (s.mng m).freelist = some b := hf.free.head_eq
  rw [takeBuffer, hrun]
  dsimp only
  generalize ht : (s.updMng m fun x => { x with
    freelist := s.link b, numFree := x.numFree - 1 }) = t at hframes hpools ⊢
  have hnum : (t.mng m).numFree = F.length := by
    obtain ⟨bl', hf'⟩ := hframes.frame MdbLayout.setFrame_frame_self
    rw [hf'.numFree, MdbLayout.setFrame_free_self]
  have ht' : t.buflists = s.buflists ∧ t.chunks = s.chunks := by
    subst ht
    exact ⟨rfl, rfl⟩
  by_cases hF : F = []
  · -- the pool is empty now and leaves the list
    subst hF
    rw [if_pos (show (t.mng m).numFree = 0 from hnum)]
    have hlist := hpools.list k
    rw [hpool] at hlist
    have hmP : m ∉ P := (List.nodup_cons.1 hlist.nodup).1
    have htaken := MdbLayout.taken_setFrame hm hfree
    refine ⟨_, (Λ.setFrame m k []).setPool k P, b, rfl, ?_, ?_, ?_, ?_, htaken.frame, htaken.free,
      htaken.length⟩
    · rw [updMng?_buflists]
      exact ht'.1
    · rw [updMng?_chunks]
      exact ht'.2
    · apply MdbFrames.setPool
      apply (hframes.same setList_sameFrames).same
      exact updMng?_sameFrames fun _ => ⟨rfl, rfl, rfl⟩
    · refine hpools.setPool hm (fun j hj => ?_) (fun u j _ _ => ?_) (fun u j hu hj => ?_) ?_
        (fun u hu => ?_) ?_
      · rw [updMng?_listOfLists]
        exact Function.update_of_ne hj ..
      · rw [setPrev_next]
        rfl
      · rw [setPrev_prev]
        refine set_of_ne fun hnext => hj ?_
        have hmem := hpools.mem.1 (hpool ▸ hlist.next_mem (List.mem_cons_self ..) hnext)
        exact (Option.some.inj (hmem.1.symm.trans hu)).symm
      · rw [updMng?_listOfLists, setPrev_next, setPrev_prev]
        have hself : (t.setList k (t.next m)).listOfLists k = t.next m := Function.update_self ..
        change IsDList t.next (Stack.set t.prev (t.next m) none) _ P
        exact hself ▸ hlist.pop
      · rw [hpool, List.mem_cons]
        exact ⟨.inr, fun h => h.resolve_left hu⟩
      · exact ⟨fun h => absurd h hmP, fun h => absurd rfl h⟩
  · rw [if_neg (by rw [hnum, List.length_eq_zero_iff]; exact hF)]
    refine ⟨t, _, b, rfl, ht'.1, ht'.2, hframes, hpools.setFree hm ?_,
      MdbLayout.taken_setFrame hm hfree⟩
    rw [hfree]
    exact ⟨fun _ => List.cons_ne_nil b F, fun _ => hF⟩

/-- The size of the chunk that `mdb_alloc_buffer` takes from `kmem`, if any. -/
def request (s : MdbState) (size : Nat) : Option Nat :=
  if mdbAllocChunksz ≤ size then some size
  else do
    let k ← s.buflists.findIdx? fun bl => bl.size == size
    if s.listOfLists k = none then some mdbAllocChunksz else none

/-- What the environment promises of the arguments of `mdb_alloc_buffer`: the size is a configured
one, and a chunk that `kmem` has to provide is a new one. -/
structure AllocOk (s : MdbState) (size a : Nat) : Prop where
  configured : size ∈ s.buflists.map MdbBuflist.size
  fresh {n : Nat} : request s size = some n → Fresh s a n

/-- The loop that looks for the size ends at its class. -/
theorem exists_class (hmem : size ∈ s.buflists.map MdbBuflist.size) :
    ∃ k bl, s.buflists.findIdx? (fun bl => bl.size == size) = some k ∧
      s.buflists[k]? = some bl ∧ bl.size = size := by
  obtain ⟨bl, hbl, hsize⟩ := List.mem_map.1 hmem
  cases hk : s.buflists.findIdx? fun bl => bl.size == size with
  | none =>
    have := List.findIdx?_eq_none_iff.1 hk bl hbl
    rw [hsize, beq_self_eq_true] at this
    cases this
  | some k =>
    obtain ⟨hlt, hk', -⟩ := List.findIdx?_eq_some_iff_getElem.1 hk
    exact ⟨k, s.buflists[k], rfl, List.getElem?_eq_getElem hlt, beq_iff_eq.1 hk'⟩

/-- `mdb_alloc_buffer` keeps the invariant, and the chunks of `kmem`. -/
theorem MdbRepresents.alloc (h : MdbRepresents s out Λ) (hok : AllocOk s size a) :
    ∃ s' Λ' b, s.mdbAllocBuffer size a = some (s', b) ∧
      MdbRepresents s' ((b, size) :: out) Λ' ∧ s.chunks ⊆ s'.chunks ∧
      s'.buflists = s.buflists ∧ (Λ.Lent s.buflists → Λ'.Lent s.buflists) := by
  obtain ⟨k, bl, hfind, hbl, rfl⟩ := exists_class hok.configured
  rw [mdbAllocBuffer, hfind, Option.bind_eq_bind, Option.bind_some, hbl, Option.bind_eq_bind,
    Option.bind_some]
  split
  · rename_i hlarge
    exact ⟨_, Λ, a, rfl, ⟨h.classes.same rfl, h.frames.allocLarge hlarge (hok.fresh (if_pos hlarge)),
      h.pools.same ⟨rfl, rfl, rfl⟩⟩, List.subset_cons_self .., rfl, id⟩
  · rename_i hsmall
    have hs := Nat.lt_of_not_le hsmall
    split
    · rename_i m hhead
      obtain ⟨s', Λ', b, hrun, hT, hchunks, hframes, hpools, htaken⟩ :=
        takeBuffer_spec h.frames h.pools h.classes hbl hhead
      exact ⟨s', Λ', b, hrun, ⟨h.classes.same hT, hframes, hpools⟩, hchunks ▸ List.Subset.refl _,
        hT, fun hlent => hlent.taken htaken⟩
    · rename_i hnone
      have hfresh : Fresh s a mdbAllocChunksz := by
        refine hok.fresh ?_
        rw [request, if_neg hsmall, hfind, Option.bind_eq_bind, Option.bind_some, if_pos hnone]
      have hokc := h.classes.ok bl (List.mem_of_getElem? hbl)
      obtain ⟨link', b, hlinks, -, -⟩ := newPool_links (a := a) hokc hs s.link
      have heq := newPool_eq hnone hlinks
      have hT : (s.newPool k bl a).buflists = s.buflists := by rw [heq]
      have hframes := (h.frames.newPool h.classes hbl hs hnone hfresh).setPool (k := k) (L := [a])
      have hpools := h.pools.newPool hnone (h.frames.fresh (Nat.le_refl _) hfresh).1 hokc hs
      obtain ⟨s', Λ', b, hrun, hT', hchunks, hframes, hpools, htaken⟩ :=
        takeBuffer_spec (m := a) hframes hpools (h.classes.same hT) (hT ▸ hbl) (by
          rw [heq]
          exact Function.update_self ..)
      refine ⟨s', Λ', b, hrun, ⟨h.classes.same (hT'.trans hT), hframes, hpools⟩, ?_,
        hT'.trans hT, fun hlent => ?_⟩
      · rw [hchunks, heq]
        exact List.subset_cons_self ..
      · refine hlent.of_ne (m := a) (fun {u j} hu hua => ?_) (fun u hua => ?_)
          fun {j bl'} ha hbl' _ => ?_
        · rw [htaken.frame] at hu
          rw [MdbLayout.setPool_frame, MdbLayout.setFrame_frame_of_ne hua] at hu
          exact hu
        · exact (htaken.free u hua).trans (MdbLayout.setFrame_free_of_ne (k := k) hua)
        · rw [htaken.frame, MdbLayout.setPool_frame, MdbLayout.setFrame_frame_self] at ha
          cases ha
          cases hbl.symm.trans hbl'
          have hlen := htaken.length
          rwa [MdbLayout.setPool_free, MdbLayout.setFrame_free_self, MdbBuflist.length_slots] at hlen

/-! ## Release -/

/-- The buffer `b` is put back into the free list of its frame. -/
def pushBuffer (s : MdbState) (m b : Nat) : MdbState :=
  { s with link := Function.update s.link b (s.mng m).freelist }.updMng m
    fun x => { x with freelist := some b, numFree := x.numFree + 1 }

theorem MdbFrames.push (h : MdbFrames s out Λ) (hc : MdbClasses s) (hm : Λ.frame m = some k)
    (hbl : s.buflists[k]? = some bl) (hb : b ∈ bl.slots m) (hout : (b, bl.size) ∈ out) :
    MdbFrames (pushBuffer s m b) (out.erase (b, bl.size)) (Λ.setFrame m k (b :: Λ.free m)) := by
  have hf := h.buflist hm hbl
  have hbF : b ∉ Λ.free m := (h.mem_out_iff hc hm hbl hb).1 hout
  have hself : (pushBuffer s m b).mng m =
    { s.mng m with freelist := some b, numFree := (s.mng m).numFree + 1 } := updMng_self
  refine h.setFree hc hm hbl ⟨hbl, hf.small, hf.aligned, ?_, ?_, ?_, ?_, ?_⟩ rfl rfl
    (fun u hu => updMng_of_ne hu) (fun u hu => ?_) (fun x hx => ?_) (fun x z hxz => ?_)
    (h.nodup.erase _)
  · rw [hself]
    exact hf.bl_eq
  · rw [hself]
    exact hf.free.push hbF
  · rw [hself, List.length_cons, ← hf.numFree]
  · exact List.nodup_cons.2 ⟨hbF, hf.nodup⟩
  · exact List.forall_mem_cons.2 ⟨hb, hf.subset⟩
  · refine Function.update_of_ne ?_ ..
    rintro rfl
    exact hu hb
  · rw [h.nodup.mem_erase_iff, h.mem_out_iff hc hm hbl hx, List.mem_cons, not_or]
    refine and_congr_left fun _ => not_congr ⟨fun e => congrArg Prod.fst e, ?_⟩
    rintro rfl
    rfl
  · rw [h.nodup.mem_erase_iff]
    refine ⟨And.right, fun hx => ⟨?_, hx⟩⟩
    rintro ⟨⟩
    exact hxz ⟨rfl, hb⟩

/-- The pool of a frame that had no free buffer. -/
theorem MdbPools.enqueue (h : MdbPools s Λ) (hm : Λ.frame m = some k) (hempty : Λ.free m = [])
    (hF : F ≠ []) :
    MdbPools (s.enqueuePool k m) ((Λ.setFrame m k F).setPool k (m :: Λ.pool k)) := by
  have hlist := h.list k
  have hmem : m ∉ Λ.pool k := fun hp => (h.mem.1 hp).2 hempty
  have hnext : (s.enqueuePool k m).next = Function.update s.next m (s.listOfLists k) := by
    dsimp only [enqueuePool]
    rw [setList_next, updMng_next, setPrev_next]
  have hprev : (s.enqueuePool k m).prev =
      Function.update (Stack.set s.prev (s.listOfLists k) (some m)) m none := by
    dsimp only [enqueuePool]
    rw [setList_prev, updMng_prev, setPrev_prev]
  have hll : (s.enqueuePool k m).listOfLists = Function.update s.listOfLists k (some m) := by
    change Function.update (updMng? ..).listOfLists k _ = _
    rw [updMng?_listOfLists]
  have hne : ∀ {u j}, Λ.frame u = some j → j ≠ k → u ≠ m := by
    rintro u j hu hj rfl
    exact hj (Option.some.inj (hu.symm.trans hm))
  refine h.setPool hm (fun j hj => ?_) (fun u j hu hj => ?_) (fun u j hu hj => ?_) ?_
    (fun u hu => ?_) ?_
  · rw [hll, Function.update_of_ne hj]
  · rw [hnext, Function.update_of_ne (hne hu hj)]
  · rw [hprev, Function.update_of_ne (hne hu hj)]
    refine set_of_ne fun hhead => hj ?_
    rw [hhead] at hlist
    exact (Option.some.inj ((h.mem.1 hlist.head_mem).1.symm.trans hu)).symm
  · rw [hll, hnext, hprev, Function.update_self]
    exact hlist.push hmem
  · rw [List.mem_cons]
    exact ⟨fun h => h.resolve_left hu, .inr⟩
  · exact ⟨fun _ => hF, fun _ => List.mem_cons_self ..⟩

theorem enqueuePool_sameFrames : SameFrames s (s.enqueuePool k m) := by
  have hhead : SameFrames s (s.updMng? (s.listOfLists k) fun x => { x with
      prevFreelist := some m }) :=
    updMng?_sameFrames fun _ => ⟨rfl, rfl, rfl⟩
  refine hhead.trans (SameFrames.trans ?_ setList_sameFrames)
  exact updMng_sameFrames fun _ => ⟨rfl, rfl, rfl⟩

/-- The pool in the frame `m` is taken out of its list. -/
def unlinkPool (s : MdbState) (k m : Nat) : MdbState :=
  let t := s.updMng? (s.next m) fun x => { x with prevFreelist := s.prev m }
  if s.listOfLists k = some m then t.setList k (s.next m)
  else t.updMng? (s.prev m) fun x => { x with nextFreelist := s.next m }

/-- The write behind the pool does not change the pointers of the pool itself. -/
theorem releasePool_eq :
    s.releasePool k m = (unlinkPool s k m).kmemFree m mdbAllocChunksz := by
  have hnext : ∀ t, t = s.updMng? (s.next m) (fun x => { x with prevFreelist := s.prev m }) →
      (t.mng m).nextFreelist = s.next m ∧ (t.mng m).prevFreelist = s.prev m := by
    rintro t rfl
    constructor
    · exact congrFun setPrev_next m
    · exact (congrFun setPrev_prev m).trans set_apply_self
  obtain ⟨hn, hp⟩ := hnext _ rfl
  dsimp only [MdbState.next, MdbState.prev] at hn hp
  dsimp only [releasePool, unlinkPool, MdbState.next, MdbState.prev]
  rw [updMng?_listOfLists, hn, hp]

theorem unlinkPool_sameFrames : SameFrames s (unlinkPool s k m) := by
  have hnext : SameFrames s (s.updMng? (s.next m) fun x => { x with prevFreelist := s.prev m }) :=
    updMng?_sameFrames fun _ => ⟨rfl, rfl, rfl⟩
  apply hnext.trans
  dsimp only [unlinkPool]
  split
  · exact setList_sameFrames
  · exact updMng?_sameFrames fun _ => ⟨rfl, rfl, rfl⟩

/-- A frame all of whose buffers are free leaves the pools. -/
theorem MdbPools.release (h : MdbPools s Λ) (hm : m ∈ Λ.pool k) :
    MdbPools (s.releasePool k m) ((Λ.dropFrame m).setPool k ((Λ.pool k).erase m)) := by
  have hlist := h.list k
  have hfr := (h.mem.1 hm).1
  have hmem : ∀ {u j}, Λ.frame u = some j → j ≠ k → u ∉ Λ.pool k := by
    intro u j hu hj hp
    exact hj (Option.some.inj (hu.symm.trans (h.mem.1 hp).1))
  have hnext : (s.releasePool k m).next =
      if s.listOfLists k = some m then s.next else Stack.set s.next (s.prev m) (s.next m) := by
    rw [releasePool_eq]
    change (unlinkPool s k m).next = _
    dsimp only [unlinkPool]
    split
    · rw [setList_next, setPrev_next]
    · rw [setNext_next, setPrev_next]
  have hprev : (s.releasePool k m).prev = Stack.set s.prev (s.next m) (s.prev m) := by
    rw [releasePool_eq]
    change (unlinkPool s k m).prev = _
    dsimp only [unlinkPool]
    split
    · rw [setList_prev, setPrev_prev]
    · rw [setNext_prev, setPrev_prev]
  have hll : (s.releasePool k m).listOfLists =
      if s.listOfLists k = some m then Function.update s.listOfLists k (s.next m)
      else s.listOfLists := by
    rw [releasePool_eq]
    change (unlinkPool s k m).listOfLists = _
    dsimp only [unlinkPool]
    split
    · change Function.update (updMng? ..).listOfLists k _ = _
      rw [updMng?_listOfLists]
    · rw [updMng?_listOfLists, updMng?_listOfLists]
  refine h.update (k := k) (L := (Λ.pool k).erase m) (fun j hj => ?_) (fun u j hu hj => ?_)
    (fun u j hu hj => ?_) ?_ rfl (fun u => ?_) fun u j hj => ?_
  · rw [hll]
    split
    · exact Function.update_of_ne hj ..
    · rfl
  · rw [hnext]
    split
    · rfl
    · exact set_of_ne fun hp => hmem hu hj (hlist.prev_mem hm hp)
  · rw [hprev]
    exact set_of_ne fun hn => hmem hu hj (hlist.next_mem hm hn)
  · have hhead : (s.releasePool k m).listOfLists k =
        if s.listOfLists k = some m then s.next m else s.listOfLists k := by
      rw [hll]
      split
      · exact Function.update_self ..
      · rfl
    rw [hhead, hnext, hprev]
    exact hlist.remove hm
  · rw [hlist.nodup.mem_erase_iff, h.mem, MdbLayout.setPool_frame]
    by_cases hu : u = m
    · subst hu
      rw [MdbLayout.dropFrame_frame_self]
      exact ⟨fun hu => absurd rfl hu.1, fun hu => absurd hu.1 nofun⟩
    · rw [MdbLayout.dropFrame_frame_of_ne hu]
      exact and_iff_right hu
  · rw [MdbLayout.setPool_frame]
    by_cases hu : u = m
    · subst hu
      rw [MdbLayout.dropFrame_frame_self, hfr]
      exact ⟨fun hu => absurd hu.1 nofun, fun hu => absurd (Option.some.inj hu.1).symm hj⟩
    · rw [MdbLayout.dropFrame_frame_of_ne hu]
      rfl

/-- The frame is given back to `kmem`. -/
theorem MdbFrames.release (h : MdbFrames s out Λ) (hm : Λ.frame m = some k)
    (hbl : s.buflists[k]? = some bl) (hall : ∀ b ∈ bl.slots m, b ∈ Λ.free m) :
    MdbFrames (s.kmemFree m mdbAllocChunksz) out (Λ.dropFrame m) := by
  refine ⟨fun {u j} hu => ?_, fun {b z} hz => ?_, fun {b z} hz hb => ?_, h.nodup,
    fun {b n} => ?_, h.apart.sublist List.erase_sublist⟩
  · by_cases hum : u = m
    · subst hum
      cases MdbLayout.dropFrame_frame_self.symm.trans hu
    · rw [MdbLayout.dropFrame_frame_of_ne hum] at hu
      exact h.frame_chunks hu
  · rw [h.small hz]
    refine exists_congr fun u => ?_
    by_cases hum : u = m
    · subst hum
      rw [usedIn_iff hm hbl]
      refine ⟨fun hb => absurd (hall b hb.2.1) hb.2.2, ?_⟩
      rintro ⟨j, bl', hj, -⟩
      cases MdbLayout.dropFrame_frame_self.symm.trans hj
    · rw [UsedIn, UsedIn, MdbLayout.dropFrame_frame_of_ne hum]
      rfl
  · by_cases hum : b = m
    · subst hum
      exact MdbLayout.dropFrame_frame_self
    · exact (MdbLayout.dropFrame_frame_of_ne hum).trans (h.large hz hb)
  · rw [kmemFree, h.chunks_nodup.mem_erase_iff, h.chunks]
    by_cases hum : b = m
    · subst hum
      rw [MdbLayout.dropFrame_frame_self]
      constructor
      · rintro ⟨hne, ⟨rfl, -⟩ | hn⟩
        · exact absurd rfl hne
        · exact .inr hn
      · rintro (⟨-, ⟨⟩⟩ | ⟨hn, hb⟩)
        cases (h.large hn hb).symm.trans hm
    · rw [MdbLayout.dropFrame_frame_of_ne hum]
      refine ⟨And.right, fun h => ⟨?_, h⟩⟩
      rintro ⟨⟩
      exact hum rfl

/-- A frame whose free list is as long as it can be has no buffer in use. -/
theorem MdbFrame.all_free (h : MdbFrame s F m k bl) (hlen : F.length = bl.maxFree) :
    ∀ b ∈ bl.slots m, b ∈ F := by
  have hperm : F.Perm (bl.slots m) := by
    refine (List.subperm_of_subset h.nodup h.subset).perm_of_length_le ?_
    exact Nat.le_of_eq (MdbBuflist.length_slots.trans hlen.symm)
  exact fun b hb => hperm.mem_iff.2 hb

theorem releasePool_frames (h : MdbFrames s out Λ) (hm : Λ.frame m = some k)
    (hbl : s.buflists[k]? = some bl) (hall : ∀ b ∈ bl.slots m, b ∈ Λ.free m) :
    MdbFrames (s.releasePool k m) out (Λ.dropFrame m) := by
  rw [releasePool_eq]
  have hsame := unlinkPool_sameFrames (s := s) (k := k) (m := m)
  exact (h.same hsame).release hm (hsame.buflists ▸ hbl) hall

/-- `mdb_free_buffer` keeps the invariant; it takes no chunk from `kmem`. -/
theorem MdbRepresents.release (h : MdbRepresents s out Λ) (hout : (a, size) ∈ out) :
    ∃ s' Λ', s.mdbFreeBuffer a size = some s' ∧ MdbRepresents s' (out.erase (a, size)) Λ' ∧
      s'.chunks ⊆ s.chunks ∧ s'.buflists = s.buflists ∧
      (Λ.Lent s.buflists → Λ'.Lent s.buflists) ∧ MdbLayout.Keeps s.buflists Λ Λ' := by
  rw [mdbFreeBuffer]
  by_cases hsize : mdbAllocChunksz ≤ size
  · rw [if_pos hsize]
    exact ⟨_, Λ, rfl, ⟨h.classes.same rfl, h.frames.freeLarge hsize hout,
      h.pools.same ⟨rfl, rfl, rfl⟩⟩, List.erase_subset, rfl, id, ⟨fun _ _ h => h, fun _ _ _ h _ _ => h⟩⟩
  rw [if_neg hsize]
  obtain ⟨m, k, bl, hm, hbl, rfl, hb, -⟩ := (h.frames.small (Nat.lt_of_not_le hsize)).1 hout
  have hf := h.frames.buflist hm hbl
  dsimp only
  rw [hf.slot_frame h.classes hb, hf.bl_eq, hbl]
  dsimp only
  change ∃ s' Λ', (if ((pushBuffer s m a).mng m).numFree = 1 then
    some ((pushBuffer s m a).enqueuePool k m) else
    if ((pushBuffer s m a).mng m).numFree = bl.maxFree then
      some ((pushBuffer s m a).releasePool k m) else some (pushBuffer s m a)) = some s' ∧ _
  have hframes := h.frames.push h.classes hm hbl hb hout
  have hpools : MdbPools (pushBuffer s m a) Λ := by
    have hlink : MdbPools { s with link := Function.update s.link a (s.mng m).freelist } Λ :=
      h.pools.same ⟨rfl, rfl, rfl⟩
    apply hlink.same
    apply updMng_samePools
    exact fun _ => ⟨rfl, rfl⟩
  have hclasses : MdbClasses (pushBuffer s m a) := h.classes.same rfl
  have hbl' : (pushBuffer s m a).buflists[k]? = some bl := hbl
  have hchunks : (pushBuffer s m a).chunks = s.chunks := rfl
  have hT : (pushBuffer s m a).buflists = s.buflists := rfl
  generalize pushBuffer s m a = t at hframes hpools hclasses hbl' hchunks hT ⊢
  have hf' := hframes.buflist MdbLayout.setFrame_frame_self hbl'
  have hnum := hf'.numFree
  rw [MdbLayout.setFrame_free_self] at hf' hnum
  rw [hnum]
  have hcons := List.cons_ne_nil a (Λ.free m)
  split
  · rename_i hone
    have hempty : Λ.free m = [] := by simpa using hone
    have hsame := enqueuePool_sameFrames (s := t) (k := k) (m := m)
    refine ⟨_, _, rfl, ⟨hclasses.same hsame.buflists, (hframes.same hsame).setPool,
      hpools.enqueue hm hempty hcons⟩, ?_, hsame.buflists.trans hT, fun hlent => ?_,
      (MdbLayout.keeps_setFrame hm).setPool⟩
    · rw [hsame.chunks, hchunks]
      exact List.Subset.refl _
    · refine (hlent.push hm hbl ?_).setPool
      by_cases hmax : bl.maxFree = 1
      · exact .inl hmax
      · exact .inr fun h => hmax (h.symm.trans hone)
  · rename_i hone
    have hne : Λ.free m ≠ [] := by
      intro hempty
      rw [hempty] at hone
      exact hone rfl
    have hpools' : MdbPools t (Λ.setFrame m k (a :: Λ.free m)) :=
      hpools.setFree hm ⟨fun _ => hne, fun _ => hcons⟩
    split
    · rename_i hall
      have hmem : m ∈ (Λ.setFrame m k (a :: Λ.free m)).pool k := h.pools.mem.2 ⟨hm, hne⟩
      refine ⟨_, _, rfl, ⟨hclasses.same ?_, (releasePool_frames hframes
        MdbLayout.setFrame_frame_self hbl' ?_).setPool, hpools'.release hmem⟩, ?_, ?_,
        fun hlent => hlent.drop.setPool,
        (MdbLayout.keeps_drop hm hbl fun hmax => hone (hall.trans hmax)).setPool⟩
      · rw [releasePool_eq]
        exact unlinkPool_sameFrames.buflists
      · rw [MdbLayout.setFrame_free_self]
        exact hf'.all_free hall
      · rw [releasePool_eq, kmemFree, unlinkPool_sameFrames.chunks, hchunks]
        exact List.erase_subset
      · rw [releasePool_eq]
        exact unlinkPool_sameFrames.buflists.trans hT
    · rename_i hall
      exact ⟨t, _, rfl, ⟨hclasses, hframes, hpools'⟩, hchunks ▸ List.Subset.refl _, hT,
        fun hlent => hlent.push hm hbl (.inr hall), MdbLayout.keeps_setFrame hm⟩

/-! ## Outstanding buffers -/

/-- The chunk that a buffer lies in. -/
structure InChunk (s : MdbState) (c x : Nat × Nat) : Prop where
  mem : c ∈ s.chunks
  lower : c.1 ≤ x.1
  upper : x.1 + x.2 ≤ c.1 + c.2

theorem Apart.of_inChunk {s' : MdbState} {c d x y : Nat × Nat} (h : Apart c d) (hx : InChunk s c x)
    (hy : InChunk s' d y) : Apart x y := by
  have := hx.lower
  have := hx.upper
  have := hy.lower
  have := hy.upper
  unfold Apart at *
  omega

instance : Std.Symm Apart := ⟨fun _ _ => Or.symm⟩

/-- A small buffer is behind the management structure of a frame. -/
theorem MdbRepresents.small_inChunk (h : MdbRepresents s out Λ) (hsize : size < mdbAllocChunksz)
    (hout : (b, size) ∈ out) : ∃ m k bl, Λ.frame m = some k ∧ s.buflists[k]? = some bl ∧
      bl.size = size ∧ b ∈ bl.slots m ∧ m + mdbMngSize ≤ b ∧
      InChunk s (m, mdbAllocChunksz) (b, size) := by
  obtain ⟨m, k, bl, hm, hbl, rfl, hb, -⟩ := (h.frames.small hsize).1 hout
  obtain ⟨hlo, hhi⟩ := (h.classes.ok bl (List.mem_of_getElem? hbl)).slot_bounds hsize hb
  refine ⟨m, k, bl, hm, hbl, rfl, hb, hlo, ?_, Nat.le_trans (Nat.le_add_right ..) hlo, hhi⟩
  exact h.frames.chunks.2 (.inl ⟨rfl, by rw [hm]; rfl⟩)

theorem MdbRepresents.large_inChunk (h : MdbRepresents s out Λ) (hsize : mdbAllocChunksz ≤ size)
    (hout : (b, size) ∈ out) : InChunk s (b, size) (b, size) :=
  ⟨h.frames.chunks.2 (.inr ⟨hsize, hout⟩), Nat.le_refl _, Nat.le_refl _⟩

theorem MdbRepresents.exists_inChunk (h : MdbRepresents s out Λ) {x : Nat × Nat} (hx : x ∈ out) :
    ∃ c, InChunk s c x := by
  by_cases hsize : mdbAllocChunksz ≤ x.2
  · exact ⟨x, h.large_inChunk hsize hx⟩
  · obtain ⟨m, -, -, -, -, -, -, -, hm⟩ := h.small_inChunk (Nat.lt_of_not_le hsize) hx
    exact ⟨_, hm⟩

/-- Two outstanding buffers do not overlap. -/
theorem MdbRepresents.apart (h : MdbRepresents s out Λ) {x y : Nat × Nat} (hx : x ∈ out)
    (hy : y ∈ out) (hne : x ≠ y) : Apart x y := by
  have hchunks : ∀ {c d}, InChunk s c x → InChunk s d y → c ≠ d → Apart x y := by
    intro c d hc hd hcd
    exact Apart.of_inChunk (h.frames.apart.forall hc.mem hd.mem hcd) hc hd
  -- a large buffer is no frame
  have hframe : ∀ {m k : Nat} {z : Nat × Nat}, Λ.frame m = some k → z ∈ out →
      mdbAllocChunksz ≤ z.2 → (m, mdbAllocChunksz) ≠ z := by
    rintro m k z hm hz hsize rfl
    cases hm.symm.trans (h.frames.large hsize hz)
  by_cases hxs : mdbAllocChunksz ≤ x.2
  · by_cases hys : mdbAllocChunksz ≤ y.2
    · exact hchunks (h.large_inChunk hxs hx) (h.large_inChunk hys hy) hne
    · obtain ⟨m, k, bl, hm, -, -, -, -, hc⟩ := h.small_inChunk (Nat.lt_of_not_le hys) hy
      exact hchunks (h.large_inChunk hxs hx) hc (hframe hm hx hxs).symm
  · obtain ⟨m, k, bl, hm, hbl, hsize, hb, -, hc⟩ := h.small_inChunk (Nat.lt_of_not_le hxs) hx
    by_cases hys : mdbAllocChunksz ≤ y.2
    · exact hchunks hc (h.large_inChunk hys hy) (hframe hm hy hys)
    · obtain ⟨m', k', bl', hm', hbl', hsize', hb', -, hc'⟩ :=
        h.small_inChunk (Nat.lt_of_not_le hys) hy
      by_cases hmm : m = m'
      · subst hmm
        cases hm.symm.trans hm'
        cases hbl.symm.trans hbl'
        have hbb : x.1 ≠ y.1 := fun e => hne (Prod.ext e (hsize.symm.trans hsize'))
        have hap := MdbBuflist.slots_apart hb hb' hbb
        rw [Apart, ← hsize, ← hsize']
        exact hap
      · exact hchunks hc hc' fun e => hmm (congrArg Prod.fst e)

/-! ## Runs -/

/-- The allocator and the outstanding buffers with their sizes. -/
structure MdbSys where
  state : MdbState
  out : List (Nat × Nat)

/-- The calls; that of `mdb_alloc_buffer` with the address of the chunk that `kmem` returns in it. -/
inductive MdbOp
  | alloc (size a : Nat)
  | free (addr size : Nat)

namespace MdbSys

def step (s : MdbSys) : MdbOp → Option MdbSys
  | .alloc size a => do
    let (t, b) ← s.state.mdbAllocBuffer size a
    return ⟨t, (b, size) :: s.out⟩
  | .free addr size => do
    let t ← s.state.mdbFreeBuffer addr size
    return ⟨t, s.out.erase (addr, size)⟩

/-- Only outstanding buffers are freed, with their size. -/
def Permitted (s : MdbSys) : MdbOp → Prop
  | .alloc size a => AllocOk s.state size a
  | .free addr size => (addr, size) ∈ s.out

/-- The states behind `mdb_buflist_init` with the given shifts. -/
abbrev Reached (pgshifts : List Nat) (s : MdbSys) : Prop :=
  Run.Reach (fun s => mdbBuflistInit pgshifts = some s.state ∧ s.out = [])
    (fun s op t => s.step op = some t) Permitted s

/-- The lists of pools and of free buffers are well formed; the outstanding buffers lie behind the
management structures and do not overlap; every call has a result; and a chunk that is handed back
contains no outstanding buffer. -/
structure Invariant (s : MdbSys) : Prop where
  lists : ∃ Λ, MdbRepresents s.state s.out Λ
  small {b size : Nat} : (b, size) ∈ s.out → size < mdbAllocChunksz →
    ∃ m, (m, mdbAllocChunksz) ∈ s.state.chunks ∧ m + mdbMngSize ≤ b ∧
      b + size ≤ m + mdbAllocChunksz
  large {b size : Nat} : (b, size) ∈ s.out → mdbAllocChunksz ≤ size → (b, size) ∈ s.state.chunks
  apart : s.out.Pairwise Apart
  defined (op : MdbOp) : s.Permitted op → (s.step op).isSome
  handedBack {op : MdbOp} {t : MdbSys} {c x : Nat × Nat} : s.Permitted op → s.step op = some t →
    c ∈ s.state.chunks → c ∉ t.state.chunks → x ∈ t.out → Apart c x

variable {s t : MdbSys} {op : MdbOp} {pgshifts : List Nat}

theorem exists_step (h : MdbRepresents s.state s.out Λ) (hok : s.Permitted op) :
    ∃ t Λ', s.step op = some t ∧ MdbRepresents t.state t.out Λ' ∧
      (s.state.chunks ⊆ t.state.chunks ∨ t.state.chunks ⊆ s.state.chunks) ∧
      t.state.buflists = s.state.buflists ∧
      (Λ.Lent s.state.buflists → Λ'.Lent s.state.buflists) := by
  cases op with
  | alloc size a =>
    obtain ⟨t, Λ', b, hrun, ht, hchunks, hT, hlent⟩ := h.alloc hok
    refine ⟨⟨t, (b, size) :: s.out⟩, Λ', ?_, ht, .inl hchunks, hT, hlent⟩
    rw [step, hrun]
    rfl
  | free addr size =>
    obtain ⟨t, Λ', hrun, ht, hchunks, hT, hlent, -⟩ := h.release hok
    refine ⟨⟨t, s.out.erase (addr, size)⟩, Λ', ?_, ht, .inr hchunks, hT, hlent⟩
    rw [step, hrun]
    rfl

theorem invariant_of_represents (h : MdbRepresents s.state s.out Λ) : s.Invariant where
  lists := ⟨Λ, h⟩
  small hout hsize := by
    obtain ⟨m, -, -, -, -, -, -, hlo, hc⟩ := h.small_inChunk hsize hout
    exact ⟨m, hc.mem, hlo, hc.upper⟩
  large hout hsize := (h.large_inChunk hsize hout).mem
  apart := h.frames.nodup.imp_of_mem fun hx hy => h.apart hx hy
  defined op hok := by
    obtain ⟨t, Λ', ht, -⟩ := exists_step h hok
    rw [ht]
    rfl
  handedBack {op t c x} hok ht hc hgone hx := by
    obtain ⟨t', Λ', ht', hrep, hchunks, -⟩ := exists_step h hok
    cases ht.symm.trans ht'
    rcases hchunks with hsub | hsub
    · exact absurd (hsub hc) hgone
    · -- the chunk of the buffer is still held, and another one
      obtain ⟨d, hd⟩ := hrep.exists_inChunk hx
      have hne : c ≠ d := by
        rintro rfl
        exact hgone hd.mem
      have hap := h.frames.apart.forall hc (hsub hd.mem) hne
      exact hap.of_inChunk ⟨hc, Nat.le_refl _, Nat.le_refl _⟩ hd

/-- The invariant of the buffer allocator. -/
theorem invariant_of_reached (hs : Reached pgshifts s) : s.Invariant := by
  have hrep : ∃ Λ, MdbRepresents s.state s.out Λ := by
    refine hs.invariant (I := fun s => ∃ Λ, MdbRepresents s.state s.out Λ) ?_ ?_
    · rintro ⟨s, out⟩ ⟨hinit, rfl⟩
      obtain ⟨s', hs', -, -, h⟩ := exists_mdbBuflistInit pgshifts
      cases hinit.symm.trans hs'
      exact ⟨_, h⟩
    · rintro s op t ⟨Λ, h⟩ hok hstep
      obtain ⟨t', Λ', ht', hrep, -⟩ := exists_step h hok
      cases hstep.symm.trans ht'
      exact ⟨Λ', hrep⟩
  obtain ⟨Λ, h⟩ := hrep
  exact invariant_of_represents h

instance {c d : Nat × Nat} : Decidable (Apart c d) := inferInstanceAs (Decidable (_ ∨ _))

instance {s : MdbState} {a n : Nat} : Decidable (Fresh s a n) :=
  decidable_of_iff (a % mdbAllocChunksz = 0 ∧ ∀ c ∈ s.chunks, Apart (a, n) c)
    ⟨fun h => ⟨h.1, h.2⟩, fun h => ⟨h.1, h.2⟩⟩

theorem allocOk_iff {s : MdbState} {size a : Nat} :
    AllocOk s size a ↔ size ∈ s.buflists.map MdbBuflist.size ∧
      (request s size).all (fun n => decide (Fresh s a n)) = true := by
  rw [Option.all_eq_true]
  constructor
  · exact fun h => ⟨h.configured, fun n hn => decide_eq_true (h.fresh hn)⟩
  · exact fun h => ⟨h.1, fun hn => of_decide_eq_true (h.2 _ hn)⟩

instance {s : MdbState} {size a : Nat} : Decidable (AllocOk s size a) :=
  decidable_of_iff _ allocOk_iff.symm

instance (s : MdbSys) (op : MdbOp) : Decidable (s.Permitted op) :=
  match op with
  | .alloc size a => inferInstanceAs (Decidable (AllocOk s.state size a))
  | .free addr size => inferInstanceAs (Decidable ((addr, size) ∈ s.out))

/-- A frame with one buffer, a large buffer, and a frame that is given back. -/
def releasingRun : List MdbOp :=
  [.alloc 2048 4096, .alloc 4096 8192, .alloc 32 12288, .free 12352 32]

/-- A run that gives a frame back reaches a state with the invariant. -/
theorem exists_bufferInvariant :
    ∃ s : MdbSys, s.out = [(8192, 4096), (6144, 2048)] ∧
      s.state.chunks = [(8192, 4096), (4096, 4096)] ∧ s.Invariant := by
  have hexec : ((mdbBuflistInit [12, 14, 16, 18, 20, 22, 24, 32, 41]).bind fun s =>
      Run.exec step Permitted releasingRun ⟨s, []⟩).any (fun s =>
        decide (s.out = [(8192, 4096), (6144, 2048)] ∧
          s.state.chunks = [(8192, 4096), (4096, 4096)])) = true := by
    decide +kernel
  obtain ⟨s, hs, hP⟩ := (Option.any_eq_true ..).1 hexec
  obtain ⟨s₀, hs₀, hrun⟩ := Option.bind_eq_some_iff.1 hs
  obtain ⟨hout, hchunks⟩ := of_decide_eq_true hP
  have hinit : Reached [12, 14, 16, 18, 20, 22, 24, 32, 41] ⟨s₀, []⟩ := .init ⟨hs₀, rfl⟩
  exact ⟨s, hout, hchunks, invariant_of_reached (hinit.exec hrun)⟩

end MdbSys

end L4Thread
