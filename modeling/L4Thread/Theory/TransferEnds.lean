import L4Thread.Lib.Run
import L4Thread.Theory.Ident
import L4Thread.Theory.Transfer

/-!
# The loops of `extended_transfer` end

Each iteration moves the place of the transfer on. A copy is as long as the shorter one of the two
parts, so one of them is used up, also where it is empty: the transfer goes to the next part of the
send string, or else to the next part of the string buffer. Both are inside their register files.
-/

namespace L4Thread

open TrapM Kernel

variable {s t : KState} {src dst : TcbPtr} {x y : Xfer} {c : StringCopy} {msgtag : MsgTag}

/-! ## Iterations -/

/-- The length that `ipc_copy` is asked for. -/
def StringCopy.copyLength (c : StringCopy) : Word := if c.dstLen < c.srcLen then c.dstLen else c.srcLen

/-- An iteration in any state of the threads. However `ipc_copy` deals with the two spaces and the
limits of the strings, it returns a length of at most the one it is asked for. -/
inductive Iterates (src dst : TcbPtr) : Xfer → Xfer → Prop
  | item {x y : Xfer} {s t : KState} : x.point = .items →
    transferStep src dst x s = .ok (.more y, t) → Iterates src dst x y
  | copy {x : Xfer} {c : StringCopy} {len : Word} : x.point = .string c → len ≤ c.copyLength →
    Iterates src dst x { x with point := .copying c c.copyLength len }
  | copied {x y : Xfer} {c : StringCopy} {copyLength len : Word} {s t : KState} :
    x.point = .copying c copyLength len → transferStep src dst x s = .ok (.more y, t) →
    Iterates src dst x y

theorem clipped_le {a b : Word} : (if a < b then a else b) ≤ b := by
  split <;> bv_omega

theorem startCopy_returns :
    Returns (fun r => ∃ len, len ≤ c.copyLength ∧
      r = .more { x with point := .copying c c.copyLength len }) (startCopy src dst x c) := by
  rw [startCopy]
  refine .bind fun _ => ?_
  dsimp only
  refine .bind fun _ => .bind fun _ => ?_
  split
  · intro s r t h
    cases h
  · refine .bind fun _ => .pure ⟨_, ?_, rfl⟩
    exact BitVec.le_trans clipped_le clipped_le

/-- The iterations of the kernel are such iterations. -/
theorem iterates_of_transferStep (h : transferStep src dst x s = .ok (.more y, t)) :
    Iterates src dst x y := by
  cases hp : x.point with
  | items => exact .item hp h
  | string c =>
    have hrun := h
    rw [transferStep, hp] at hrun
    obtain ⟨len, hlen, hy⟩ := startCopy_returns s _ t hrun
    cases hy
    exact .copy hp hlen
  | copying c copyLength len => exact .copied hp h

/-! ## The measure -/

/-- The copy that is under way is as long as `ipc_copy` was asked for, or shorter. -/
def Xfer.Copies (x : Xfer) : Prop :=
  match x.point with
  | .copying c copyLength len => copyLength = c.copyLength ∧ len ≤ copyLength
  | _ => True

/-- How often the transfer of a message can move on within one register of the message. -/
def itersPerRegister : Nat := 2 * ipcNumBr + 3

/-- How far the transfer is from its end: first in the message registers, then in the buffer
registers, and last the two halves of a copy. -/
def Xfer.remaining (x : Xfer) : Nat :=
  match x.point with
  | .items => (x.totalMrs + 1 - x.srcIdx) * itersPerRegister
  | .string c => (x.totalMrs + 1 - (x.srcIdx + c.srcPtridx)) * itersPerRegister +
      2 * (ipcNumBr - (x.brIdx + c.dstPtridx)) + 2
  | .copying c _ _ => (x.totalMrs + 1 - (x.srcIdx + c.srcPtridx)) * itersPerRegister +
      2 * (ipcNumBr - (x.brIdx + c.dstPtridx)) + 1

/-- Behind the register of a message there is room for all that can happen at one. -/
theorem register_lt {total i j r : Nat} (hij : i < j) (hi : i ≤ total) (hr : r < itersPerRegister) :
    (total + 1 - j) * itersPerRegister + r < (total + 1 - i) * itersPerRegister := by
  have hsucc : total + 1 - j + 1 ≤ total + 1 - i := by omega
  calc (total + 1 - j) * itersPerRegister + r
      < (total + 1 - j) * itersPerRegister + itersPerRegister := Nat.add_lt_add_left hr _
    _ = (total + 1 - j + 1) * itersPerRegister := (Nat.succ_mul _ _).symm
    _ ≤ (total + 1 - i) * itersPerRegister := Nat.mul_le_mul_right _ hsucc

theorem buffers_lt (i : Nat) : 2 * (ipcNumBr - i) + 2 < itersPerRegister := by
  unfold itersPerRegister
  omega

/-- The result, if it is not the last, has less than `n` iterations to go. -/
def XferResult.Below (n : Nat) : XferResult → Prop
  | .more y => y.Copies ∧ y.remaining < n
  | .done _ => True

theorem messageOverflow_below {n : Nat} :
    Returns (XferResult.Below n) (messageOverflow src dst x) := by
  rw [messageOverflow]
  iterate 3 refine .bind fun _ => ?_
  exact .pure trivial

theorem transferDone_below {n : Nat} : Returns (XferResult.Below n) (transferDone src x) := by
  rw [transferDone]
  iterate 2 refine .bind fun _ => ?_
  exact .pure trivial

theorem stringItem_below {item : MsgItem} (hp : x.point = .items) (hlt : x.srcIdx < x.totalMrs) :
    Returns (XferResult.Below x.remaining) (stringItem src dst x item) := by
  rw [stringItem]
  refine .bind fun _ => ?_
  split
  · exact messageOverflow_below
  · refine .bind fun _ => .bind fun _ => ?_
    dsimp only
    split
    · exact messageOverflow_below
    · refine .bind fun _ => ?_
      split
      · exact messageOverflow_below
      · refine .pure ⟨trivial, ?_⟩
        simp only [Xfer.remaining, hp, Nat.add_assoc]
        exact register_lt (Nat.lt_succ_self _) (Nat.le_of_lt hlt) (buffers_lt _)

theorem transferItem_below (hp : x.point = .items) :
    Returns (XferResult.Below x.remaining) (transferItem src dst x) := by
  rw [transferItem]
  split
  · rename_i hlt
    refine .bind fun _ => ?_
    dsimp only
    split
    · refine .bind fun _ => ?_
      split
      · exact messageOverflow_below
      · refine .bind fun _ => .bind fun _ => .pure ⟨?_, ?_⟩
        · simp only [Xfer.Copies, hp]
        · have hnext : x.srcIdx < x.srcIdx + 2 := by omega
          have hlow := register_lt (r := 0) hnext (Nat.le_of_lt hlt) (by decide)
          simpa only [Xfer.remaining, hp, Nat.add_zero] using hlow
    · split
      · exact stringItem_below hp hlt
      · exact messageOverflow_below
  · exact transferDone_below

/-- The string buffer moves on where it has no room left. -/
theorem nextBuffer_below {n : Nat} (hx : c.Placed x.srcIdx x.totalMrs x.brIdx)
    (hroom : c.dstLen ≠ 0 → (Xfer.remaining { x with point := .string c }) < n)
    (hfull : (x.totalMrs + 1 - (x.srcIdx + c.srcPtridx)) * itersPerRegister +
      2 * (ipcNumBr - (x.brIdx + c.dstPtridx)) < n) :
    Returns (XferResult.Below n) (nextBuffer src dst x c) := by
  have hdst := hx.dstFits
  rw [nextBuffer]
  split
  · exact .pure ⟨trivial, hroom ‹_›⟩
  · split
    · rename_i hpart
      refine .bind fun _ => .pure ⟨trivial, ?_⟩
      simp only [Xfer.remaining]
      omega
    · split
      · dsimp only
        split
        · exact messageOverflow_below
        · refine .bind fun _ => .bind fun _ => ?_
          split
          · exact messageOverflow_below
          · refine .pure ⟨trivial, ?_⟩
            simp only [Xfer.remaining]
            omega
      · exact messageOverflow_below

/-- A copy that is not clipped uses up a part of the send string or of the string buffer. -/
theorem StringCopy.used_up {len : Word} (hlen : len ≤ c.copyLength) (hfull : ¬len < c.copyLength) :
    c.srcLen - len = 0 ∨ c.dstLen - len = 0 := by
  have heq : len = c.copyLength := BitVec.le_antisymm hlen (BitVec.not_lt.mp hfull)
  rw [heq, copyLength]
  split
  · exact .inr (BitVec.sub_self _)
  · exact .inl (BitVec.sub_self _)

theorem finishCopy_below {copyLength len : Word} (hp : x.point = .copying c copyLength len)
    (hx : c.Placed x.srcIdx x.totalMrs x.brIdx) (hcopies : x.Copies) :
    Returns (XferResult.Below x.remaining) (finishCopy src dst x c copyLength len) := by
  rw [Xfer.Copies, hp] at hcopies
  obtain ⟨rfl, hlen⟩ := hcopies
  have hpos : x.srcIdx + c.srcPtridx ≤ x.totalMrs :=
    (Nat.add_le_add_left hx.srcPart _).trans hx.srcFits
  have hmeasure : x.remaining = (x.totalMrs + 1 - (x.srcIdx + c.srcPtridx)) * itersPerRegister +
      2 * (ipcNumBr - (x.brIdx + c.dstPtridx)) + 1 := by
    simp only [Xfer.remaining, hp]
  -- The send string goes on at another register.
  have hsend : ∀ {x' : Xfer} {c' : StringCopy}, x'.totalMrs = x.totalMrs →
      x.srcIdx + c.srcPtridx < x'.srcIdx + c'.srcPtridx →
      c'.Placed x'.srcIdx x'.totalMrs x'.brIdx →
      Returns (XferResult.Below x.remaining) (nextBuffer src dst x' c') := by
    intro x' c' htotal hidx hplaced
    have hnext := register_lt hidx hpos (buffers_lt (x'.brIdx + c'.dstPtridx))
    rw [hmeasure]
    refine nextBuffer_below hplaced (fun _ => ?_) ?_
    · simp only [Xfer.remaining, htotal]
      omega
    · rw [htotal]
      omega
  rw [finishCopy]
  refine .bind fun _ => ?_
  dsimp only
  split
  · exact messageOverflow_below
  · rename_i hfull
    split
    · rename_i hmore
      have hdone := (StringCopy.used_up hlen hfull).resolve_left hmore
      refine nextBuffer_below
        { srcPos := hx.srcPos, srcPart := hx.srcPart, srcFits := hx.srcFits
          dstPos := hx.dstPos, dstPart := hx.dstPart, dstFits := hx.dstFits }
        (fun hroom => absurd hdone hroom) ?_
      rw [hmeasure]
      exact Nat.lt_succ_self _
    · split
      · rename_i hpart
        refine .bind fun _ => hsend rfl (by simp only; omega) ?_
        exact
          { srcPos := Nat.succ_pos _
            srcPart := hpart
            srcFits := hx.srcFits
            dstPos := hx.dstPos
            dstPart := hx.dstPart
            dstFits := hx.dstFits }
      · split
        · split
          · exact messageOverflow_below
          · refine .bind fun _ => .bind fun _ => ?_
            split
            · exact messageOverflow_below
            · rename_i hfits
              refine hsend rfl (by simp only; omega) ?_
              exact
                { srcPos := Nat.one_pos
                  srcPart := MsgItem.getStringPtrCount_pos _
                  srcFits := Nat.le_of_not_lt hfits
                  dstPos := hx.dstPos
                  dstPart := hx.dstPart
                  dstFits := hx.dstFits }
        · refine .bind fun _ => .pure ⟨trivial, ?_⟩
          have hnext : x.srcIdx + c.srcPtridx < x.srcIdx + c.srcPtridx + 1 := Nat.lt_succ_self _
          have hlow := register_lt (r := 0) hnext hpos (by decide)
          rw [hmeasure]
          simp only [Xfer.remaining]
          omega

/-- An iteration keeps the checks of the transfer, and there is less to go. -/
theorem Iterates.lower (h : Iterates src dst x y) (hx : x.Sound ∧ x.Copies) :
    (y.Sound ∧ y.Copies) ∧ y.remaining < x.remaining := by
  obtain ⟨hsound, hcopies⟩ := hx
  cases h with
  | item hp hrun =>
    have hbelow : Returns (XferResult.Below x.remaining) (transferStep src dst x) := by
      rw [transferStep, hp]
      exact transferItem_below hp
    obtain ⟨hc, hlt⟩ := hbelow _ _ _ hrun
    exact ⟨⟨transferStep_sound hsound _ _ _ hrun, hc⟩, hlt⟩
  | copy hp hlen =>
    rw [Xfer.Sound, hp] at hsound
    refine ⟨⟨hsound, rfl, hlen⟩, ?_⟩
    simp only [Xfer.remaining, hp]
    exact Nat.lt_succ_self _
  | copied hp hrun =>
    have hplaced := hsound.2
    rw [hp] at hplaced
    have hbelow : Returns (XferResult.Below x.remaining) (transferStep src dst x) := by
      rw [transferStep, hp]
      exact finishCopy_below hp hplaced hcopies
    obtain ⟨hc, hlt⟩ := hbelow _ _ _ hrun
    exact ⟨⟨transferStep_sound hsound _ _ _ hrun, hc⟩, hlt⟩

/-! ## The loop that skips a string buffer -/

section Quiet

variable {n brIdx i : Nat} {p : TcbPtr} {item : MsgItem}

theorem quiet_getBr : Quiet (getBr p i) := .bind quiet_readUtcb fun _ => .pure _

theorem quiet_getMr : Quiet (getMr p i) := .bind quiet_readUtcb fun _ => .pure _

theorem quiet_copyMr : Quiet (copyMr dst src i) := .bind quiet_getMr fun _ => quiet_modUtcb

theorem quiet_messageOverflow : Quiet (messageOverflow src dst x) := by
  unfold messageOverflow setErrorCode
  refine .bind quiet_cancelTimeout fun _ => .bind quiet_modUtcb fun _ => ?_
  exact .bind quiet_modUtcb fun _ => .pure _

theorem quiet_transferDone : Quiet (transferDone src x) :=
  .bind quiet_cancelTimeout fun _ => .bind (.modify _) fun _ => .pure _

/-- The skipped items take up at least two buffer registers each. -/
theorem quiet_skipBuffer (hlt : brIdx < ipcNumBr) (h : ipcNumBr ≤ brIdx + 2 * n) :
    Quiet (skipBuffer dst n brIdx item) := by
  induction n generalizing brIdx item with
  | zero => omega
  | succ n ih =>
    have hpos := item.getStringPtrCount_pos
    rw [skipBuffer]
    split
    · exact .pure _
    · split
      · exact .bind quiet_getBr fun _ => ih (by omega) (by omega)
      · exact .pure _

theorem quiet_stringItem : Quiet (stringItem src dst x item) := by
  rw [stringItem]
  refine .bind quiet_copyMr fun _ => ?_
  split
  · exact quiet_messageOverflow
  · refine .bind quiet_getMr fun _ => .bind quiet_getBr fun _ => ?_
    dsimp only
    split
    · exact quiet_messageOverflow
    · refine .bind quiet_getBr fun _ => ?_
      split
      · exact quiet_messageOverflow
      · exact .pure _

theorem quiet_transferItem : Quiet (transferItem src dst x) := by
  rw [transferItem]
  split
  · refine .bind quiet_getMr fun _ => ?_
    dsimp only
    split
    · refine .bind quiet_getBr fun _ => ?_
      split
      · exact quiet_messageOverflow
      · exact .bind quiet_copyMr fun _ => .bind quiet_copyMr fun _ => .pure _
    · split
      · exact quiet_stringItem
      · exact quiet_messageOverflow
  · exact quiet_transferDone

theorem quiet_nextBuffer : Quiet (nextBuffer src dst x c) := by
  rw [nextBuffer]
  split
  · exact .pure _
  · split
    · exact .bind quiet_getBr fun _ => .pure _
    · split
      · dsimp only
        split
        · exact quiet_messageOverflow
        · refine .bind quiet_getBr fun _ => .bind quiet_getBr fun _ => ?_
          split
          · exact quiet_messageOverflow
          · exact .pure _
      · exact quiet_messageOverflow

theorem quiet_finishCopy {copyLength len : Word} (hx : c.Placed x.srcIdx x.totalMrs x.brIdx) :
    Quiet (finishCopy src dst x c copyLength len) := by
  have hpos := c.dstItem.getStringPtrCount_pos
  have hdst := hx.dstFits
  rw [finishCopy]
  refine .bind (.modify _) fun _ => ?_
  dsimp only
  split
  · exact quiet_messageOverflow
  · split
    · exact quiet_nextBuffer
    · split
      · exact .bind quiet_getMr fun _ => quiet_nextBuffer
      · split
        · split
          · exact quiet_messageOverflow
          · refine .bind quiet_getMr fun _ => .bind quiet_getMr fun _ => ?_
            split
            · exact quiet_messageOverflow
            · exact quiet_nextBuffer
        · exact .bind (quiet_skipBuffer (by omega) (by omega)) fun _ => .pure _

theorem wp_startCopy_hang :
    wp (fun e => e = .hang → (s.tcb src).space ≠ (s.tcb dst).space) (startCopy src dst x c)
      (fun _ _ => True) s := by
  have hquiet : Throws (fun e => e = .hang → (s.tcb src).space ≠ (s.tcb dst).space)
      (copyMr dst src (x.srcIdx + c.srcPtridx)) := fun u e he hh => absurd hh (quiet_copyMr u e he)
  have hkeeps : Keeps (fun s : KState => s.tcb) (copyMr dst src (x.srcIdx + c.srcPtridx)) := by
    unfold copyMr getMr setMr modUtcb
    refine .bind (.bind keeps_readUtcb fun _ => .pure _) fun _ => ?_
    exact .bind keeps_getUtcb fun _ => .modify fun _ => rfl
  rw [startCopy, wp_bind]
  refine hquiet.wp (hkeeps.wp fun _ t ht => ?_)
  dsimp only
  rw [wp_bind, wp_readTcb, wp_bind, wp_readTcb, wp_ite, ht]
  split
  · exact fun _ => ‹_›
  · trivial

/-- An iteration hangs only where `ipc_copy` needs a copy area. -/
theorem transferStep_hang (hx : x.Sound) (h : transferStep src dst x s = .error .hang) :
    ∃ c, x.point = .string c ∧ (s.tcb src).space ≠ (s.tcb dst).space := by
  have hpoint := hx.2
  rw [transferStep] at h
  cases hp : x.point with
  | items =>
    rw [hp] at h
    exact absurd rfl (quiet_transferItem s _ h)
  | string c =>
    rw [hp] at h
    exact ⟨c, rfl, wp_error wp_startCopy_hang h rfl⟩
  | copying c copyLength len =>
    rw [hp] at h hpoint
    exact absurd rfl (quiet_finishCopy hpoint s _ h)

end Quiet

/-! ## The law -/

theorem extendedTransfer_copies : Returns (fun x => x.Copies ∧
    x.remaining = msgtag.getTyped * itersPerRegister) (extendedTransfer src dst msgtag) := by
  rw [extendedTransfer]
  split
  · intro s x t h
    cases h
  · iterate 6 refine .bind fun _ => ?_
    refine .pure ⟨trivial, ?_⟩
    simp only [Xfer.remaining]
    congr 1
    omega

/-- Two threads in the same space, one of them with empty strings in its message registers; the
other one accepts them. -/
def KState.emptyStrings : KState :=
  { KState.fullMessage with
    utcb := fun _ => { Utcb.zero with br := fun i => if i = 0 then 1 else 0 } }

/-- Another iteration follows. -/
def Kernel.XferResult.isMore : XferResult → Bool
  | .more _ => true
  | .done _ => false

end L4Thread
