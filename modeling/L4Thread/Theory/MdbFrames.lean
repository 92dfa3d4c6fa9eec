import L4Thread.Theory.MdbAlloc

/-!
# Frames that are given back

A frame of the buffer allocator goes back to `kmem` with the last of its buffers. `mdb_free_buffer`
looks for the first free buffer of a frame before it looks for the last one in use, which are the
same where a frame has room for one buffer only.
-/

namespace L4Thread

/-! ## Classes with room for one buffer -/

/-- A frame has room for more than one buffer. -/
theorem MdbBuflist.maxFree_ne_one_iff {bl : MdbBuflist} (hok : bl.Ok) (hfill : bl.Filled)
    (hs : bl.size < mdbAllocChunksz) :
    bl.maxFree ≠ 1 ↔ mdbMngSize + 2 * bl.size ≤ mdbAllocChunksz := by
  obtain ⟨-, hpos, hfit⟩ := hok hs
  have hfull := hfill hs
  constructor
  · intro hmax
    have hmul : 2 * bl.size ≤ bl.maxFree * bl.size := Nat.mul_le_mul_right _ (by omega)
    omega
  · intro hroom hmax
    rw [hmax] at hfull
    omega

/-- A frame whose free list is not full has a buffer in use. -/
theorem MdbFrames.exists_out {s : MdbState} {out : List (Nat × Nat)} {Λ : MdbLayout} {m k : Nat}
    {bl : MdbBuflist} (h : MdbFrames s out Λ) (hc : MdbClasses s) (hm : Λ.frame m = some k)
    (hbl : s.buflists[k]? = some bl) (hlt : (Λ.free m).length < bl.maxFree) :
    ∃ b, (b, bl.size) ∈ out ∧ b / mdbAllocChunksz * mdbAllocChunksz = m := by
  have hf := h.buflist hm hbl
  obtain ⟨b, hb, hfree⟩ : ∃ b ∈ bl.slots m, b ∉ Λ.free m := by
    by_contra! hall
    have hnodup := MdbBuflist.slots_nodup (m := m) (hc.pos bl (List.mem_of_getElem? hbl))
    have hle := (List.subperm_of_subset hnodup hall).length_le
    rw [MdbBuflist.length_slots] at hle
    omega
  exact ⟨b, (h.mem_out_iff hc hm hbl hb).2 hfree, hf.slot_frame hc hb⟩

namespace MdbSys

variable {s t : MdbSys} {Λ : MdbLayout} {pgshifts : List Nat} {size addr m : Nat}

/-! ## Runs -/

/-- The layout of a reached state. -/
structure Laid (pgshifts : List Nat) (s : MdbSys) (Λ : MdbLayout) : Prop where
  represents : MdbRepresents s.state s.out Λ
  sizes : s.state.buflists.map MdbBuflist.size = mdbSizes pgshifts
  filled : ∀ bl ∈ s.state.buflists, bl.Filled
  lent : Λ.Lent s.state.buflists

theorem exists_init (pgshifts : List Nat) : ∃ s₀ Λ, mdbBuflistInit pgshifts = some s₀ ∧
    Laid pgshifts ⟨s₀, []⟩ Λ ∧ ∀ m, Λ.frame m = none := by
  obtain ⟨s₀, hs₀, hsizes, hfill, h⟩ := exists_mdbBuflistInit pgshifts
  exact ⟨s₀, _, hs₀, ⟨h, hsizes, hfill, nofun⟩, fun _ => rfl⟩

theorem exists_laid (hs : Reached pgshifts s) : ∃ Λ, Laid pgshifts s Λ := by
  refine hs.invariant (I := fun s => ∃ Λ, Laid pgshifts s Λ) ?_ ?_
  · rintro ⟨s, out⟩ ⟨hinit, rfl⟩
    obtain ⟨s₀, Λ, hs₀, h, -⟩ := exists_init pgshifts
    cases hinit.symm.trans hs₀
    exact ⟨Λ, h⟩
  · rintro s op t ⟨Λ, h⟩ hok hstep
    obtain ⟨t', Λ', ht', hrep, -, hT, hlent⟩ := exists_step h.represents hok
    cases hstep.symm.trans ht'
    exact ⟨Λ', hrep, hT ▸ h.sizes, hT ▸ h.filled, hT ▸ hlent h.lent⟩

/-- The frame that an address is in. -/
def frameOf (addr : Nat) : Nat := addr / mdbAllocChunksz * mdbAllocChunksz

/-- The allocator has the frame from `kmem`, and did not pass it on as a large buffer. -/
structure HasFrame (s : MdbSys) (m : Nat) : Prop where
  mem : (m, mdbAllocChunksz) ∈ s.state.chunks
  small : (m, mdbAllocChunksz) ∉ s.out

/-- The size of the buffers of a frame. -/
def frameSize? (s : MdbSys) (m : Nat) : Option Nat :=
  s.state.buflists[(s.state.mng m).bl]?.map MdbBuflist.size

/-- The frame is in no list of pools. -/
def Unlinked (s : MdbSys) (m : Nat) : Prop :=
  ∀ k, ∃ L, Stack.IsDList s.state.next s.state.prev (s.state.listOfLists k) L ∧ m ∉ L

theorem Laid.hasFrame_iff (h : Laid pgshifts s Λ) : s.HasFrame m ↔ (Λ.frame m).isSome := by
  constructor
  · rintro ⟨hmem, hsmall⟩
    rcases h.represents.frames.chunks.1 hmem with ⟨-, hm⟩ | ⟨-, hout⟩
    · exact hm
    · exact absurd hout hsmall
  · intro hm
    refine ⟨h.represents.frames.chunks.2 (.inl ⟨rfl, hm⟩), fun hout => ?_⟩
    rw [h.represents.frames.large (Nat.le_refl _) hout] at hm
    cases hm

/-- Every frame of a size goes back to `kmem` in the call that frees its last buffer, and with no
buffer in use the class has no frame. -/
structure ReturnsFrames (pgshifts : List Nat) (size : Nat) : Prop where
  freed {s t : MdbSys} {addr : Nat} : Reached pgshifts s → s.Permitted (.free addr size) →
    s.step (.free addr size) = some t → (∀ x ∈ t.out, frameOf x.1 ≠ frameOf addr) →
    s.HasFrame (frameOf addr) ∧ (frameOf addr, mdbAllocChunksz) ∉ t.state.chunks ∧
      t.Unlinked (frameOf addr)
  empty {s : MdbSys} {m : Nat} : Reached pgshifts s → (∀ b, (b, size) ∉ s.out) →
    s.HasFrame m → s.frameSize? m ≠ some size

/-- A buffer of a small class is in a frame of the class. -/
theorem Laid.exists_frame (h : Laid pgshifts s Λ) (hs : size < mdbAllocChunksz)
    (hout : (addr, size) ∈ s.out) : ∃ k bl, Λ.frame (frameOf addr) = some k ∧
      s.state.buflists[k]? = some bl ∧ bl.size = size := by
  obtain ⟨m, k, bl, hm, hbl, hsize, hb, -⟩ := (h.represents.frames.small hs).1 hout
  have hframe := (h.represents.frames.buflist hm hbl).slot_frame h.represents.classes hb
  rw [← hframe] at hm
  exact ⟨k, bl, hm, hbl, hsize⟩

/-- Where a frame has room for more than one buffer, frames are given back. -/
theorem returnsFrames_of_room (hs : size < mdbAllocChunksz)
    (hroom : mdbMngSize + 2 * size ≤ mdbAllocChunksz) : ReturnsFrames pgshifts size where
  freed {s t addr} hreach hok hstep hlast := by
    obtain ⟨Λ, h⟩ := exists_laid hreach
    obtain ⟨k, bl, hm, hbl, rfl⟩ := h.exists_frame hs hok
    have hmem := List.mem_of_getElem? hbl
    have hmax := (MdbBuflist.maxFree_ne_one_iff (h.represents.classes.ok bl hmem) (h.filled bl hmem)
      hs).2 hroom
    obtain ⟨s', Λ', hrun, hrep, -, hT, hlent, hkeeps⟩ := h.represents.release hok
    rw [step, hrun] at hstep
    cases hstep
    have hnone : Λ'.frame (frameOf addr) = none := by
      -- a frame that is left would have a buffer in use
      by_contra hsome
      obtain ⟨j, hj⟩ := Option.ne_none_iff_exists'.1 hsome
      cases hm.symm.trans (hkeeps.frame _ _ hj)
      obtain ⟨b, hb, hframe⟩ := hrep.frames.exists_out hrep.classes hj (hT ▸ hbl)
        (hlent h.lent _ _ _ hj hbl hmax)
      exact hlast _ hb hframe
    refine ⟨h.hasFrame_iff.2 (by rw [hm]; rfl), fun hchunk => ?_, fun k => ?_⟩
    · rcases hrep.frames.chunks.1 hchunk with ⟨-, hsome⟩ | ⟨-, hout⟩
      · rw [hnone] at hsome
        cases hsome
      · have hlarge := h.represents.frames.large (Nat.le_refl _) (List.mem_of_mem_erase hout)
        cases hlarge.symm.trans hm
    · refine ⟨_, hrep.pools.list k, fun hpool => ?_⟩
      cases hnone.symm.trans (hrep.pools.mem.1 hpool).1
  empty {s m} hreach hnone hframe hsize := by
    obtain ⟨Λ, h⟩ := exists_laid hreach
    obtain ⟨k, hm⟩ := Option.isSome_iff_exists.1 (h.hasFrame_iff.1 hframe)
    obtain ⟨bl, hf⟩ := h.represents.frames.frame hm
    rw [frameSize?, hf.bl_eq, hf.buflist] at hsize
    cases hsize
    have hmem := List.mem_of_getElem? hf.buflist
    have hmax := (MdbBuflist.maxFree_ne_one_iff (h.represents.classes.ok bl hmem) (h.filled bl hmem)
      hs).2 hroom
    obtain ⟨b, hb, -⟩ := h.represents.frames.exists_out h.represents.classes hm hf.buflist
      (h.lent _ _ _ hm hf.buflist hmax)
    exact hnone b hb

/-- The frames of a size are given back if and only if a frame has room for two of its buffers. -/
theorem returnsFrames_iff (hsize : size ∈ mdbSizes pgshifts) (hs : size < mdbAllocChunksz) :
    ReturnsFrames pgshifts size ↔ mdbMngSize + 2 * size ≤ mdbAllocChunksz := by
  refine ⟨fun hreturns => ?_, returnsFrames_of_room hs⟩
  by_contra hroom
  -- a buffer is taken from the empty class and freed
  obtain ⟨s₀, Λ, hs₀, h, hnone⟩ := exists_init pgshifts
  have hinit : Reached pgshifts ⟨s₀, []⟩ := .init ⟨hs₀, rfl⟩
  have hchunks : ∀ c, c ∉ s₀.chunks := by
    intro c hc
    rcases h.represents.frames.chunks.1 hc with ⟨-, hsome⟩ | ⟨-, hout⟩
    · rw [hnone] at hsome
      cases hsome
    · cases hout
  have hok : AllocOk s₀ size mdbAllocChunksz :=
    ⟨h.sizes ▸ hsize, fun _ => ⟨Nat.mod_self _, fun c hc => absurd hc (hchunks c)⟩⟩
  obtain ⟨s₁, Λ₁, b, hrun, hrep, -, hT, hlent⟩ := h.represents.alloc hok
  have hstep : step ⟨s₀, []⟩ (.alloc size mdbAllocChunksz) = some ⟨s₁, [(b, size)]⟩ := by
    rw [step, hrun]
    rfl
  have hreach : Reached pgshifts ⟨s₁, [(b, size)]⟩ := hinit.step (e := .alloc size _) hok hstep
  have h₁ : Laid pgshifts ⟨s₁, [(b, size)]⟩ Λ₁ :=
    ⟨hrep, hT ▸ h.sizes, hT ▸ h.filled, hT ▸ hlent h.lent⟩
  have hmem : (b, size) ∈ [(b, size)] := List.mem_singleton_self _
  obtain ⟨s₂, Λ₂, hrun, hrep, -, hT, -, hkeeps⟩ := hrep.release hmem
  have hstep : step ⟨s₁, [(b, size)]⟩ (.free b size) = some ⟨s₂, []⟩ := by
    rw [step, hrun, List.erase_cons_head]
    rfl
  -- the frame stays
  obtain ⟨-, hgone, -⟩ := hreturns.freed hreach hmem hstep fun _ hx => by cases hx
  obtain ⟨k, bl, hm, hbl, rfl⟩ := h₁.exists_frame hs hmem
  have hbl' := List.mem_of_getElem? hbl
  have hmax : bl.maxFree = 1 := by
    by_contra hmax
    exact hroom ((MdbBuflist.maxFree_ne_one_iff (h₁.represents.classes.ok bl hbl')
      (h₁.filled bl hbl') hs).1 hmax)
  refine hgone (hrep.frames.chunks.2 (.inl ⟨rfl, ?_⟩))
  rw [hkeeps.single _ _ _ hm hbl hmax]
  rfl

/-- The sizes of buffers for the page sizes of the 40-bit configuration. -/
theorem returnsFrames_mapnode :
    mapnodeSize ∈ mdbSizes [12, 14, 16, 18, 20, 22, 24, 32, 41] ∧ mapnodeSize < mdbAllocChunksz ∧
      ReturnsFrames [12, 14, 16, 18, 20, 22, 24, 32, 41] mapnodeSize :=
  ⟨by decide, by decide, (returnsFrames_iff (by decide) (by decide)).mpr (by decide)⟩

/-- A root array with the entries of 16 MB is freed, the only buffer, and its frame stays. -/
theorem exists_frame_kept : 2048 ∈ mdbSizes [12, 14, 16, 18, 20, 22, 24, 32, 41] ∧
    ∃ s t : MdbSys, Reached [12, 14, 16, 18, 20, 22, 24, 32, 41] s ∧
      s.Permitted (.free 6144 2048) ∧ s.step (.free 6144 2048) = some t ∧ t.out = [] ∧
      t.state.chunks = [(4096, 4096)] ∧ t.frameSize? 4096 = some 2048 := by
  refine ⟨by decide, ?_⟩
  have hexec : ((mdbBuflistInit [12, 14, 16, 18, 20, 22, 24, 32, 41]).bind fun s =>
      (Run.exec step Permitted [.alloc 2048 4096] ⟨s, []⟩).bind fun s =>
        (s.step (.free 6144 2048)).map fun t => (s, t)).any (fun r =>
          decide (r.1.Permitted (.free 6144 2048) ∧ r.2.out = [] ∧
            r.2.state.chunks = [(4096, 4096)] ∧ r.2.frameSize? 4096 = some 2048)) = true := by
    decide +kernel
  obtain ⟨⟨s, t⟩, hs, hP⟩ := (Option.any_eq_true ..).1 hexec
  obtain ⟨s₀, hs₀, hrun⟩ := Option.bind_eq_some_iff.1 hs
  obtain ⟨s', hs', hmap⟩ := Option.bind_eq_some_iff.1 hrun
  obtain ⟨t', ht, heq⟩ := Option.map_eq_some_iff.1 hmap
  cases heq
  have hinit : Reached [12, 14, 16, 18, 20, 22, 24, 32, 41] ⟨s₀, []⟩ := .init ⟨hs₀, rfl⟩
  obtain ⟨hfree, hP⟩ := of_decide_eq_true hP
  exact ⟨s, t, hinit.exec hs', hfree, ht, hP⟩

end MdbSys

end L4Thread
