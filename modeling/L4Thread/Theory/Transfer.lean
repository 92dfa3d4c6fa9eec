import L4Thread.Kernel.Transfer
import L4Thread.Theory.Wp

/-!
# The register files in `extended_transfer`

Which iterations of the transfer access a place behind the register files. The checks of the source
compare with the number of the registers, not with the last index, so an item of the message may end
at the place behind the message registers, and a string buffer at the one behind the buffer
registers.
-/

namespace L4Thread

open TrapM Kernel

variable {α β : Type} {s t : KState} {p src dst : TcbPtr} {u v : UtcbPtr} {x y : Xfer}
  {c : StringCopy} {i : Nat}

/-! ## Checked computations -/

namespace Checked

/-- Only a trap of the kernel stops the computation. -/
def IsTrap (e : AccessError) : Prop := ∃ t, e = .trap t

theorem liftM_eq (k : Kernel α) : (liftM k : Checked α) = lift k := rfl

theorem wp_lift {E : AccessError → Prop} {k : Kernel α} {Q : α → KState → Prop} :
    wp E (lift k) Q s ↔ wp (fun t => E (.trap t)) k Q s := by
  unfold wp lift
  cases k s <;> rfl

/-- A computation of the kernel accesses nothing behind the files. -/
theorem wp_lift_true {k : Kernel α} : wp IsTrap (lift k) (fun _ _ => True) s := by
  unfold wp lift
  cases k s with
  | ok r => trivial
  | error t => exact ⟨t, rfl⟩

theorem wp_check {r : Register} {Q : Unit → KState → Prop} :
    wp IsTrap (check r) Q s ↔ r.InRange ∧ Q () s := by
  rw [check, wp_ite]
  split <;> simp_all [IsTrap]

theorem wp_getMr (hu : (s.tcb p).utcb = some u) {Q : Word → KState → Prop} :
    wp IsTrap (getMr p i) Q s ↔ i < ipcNumMr ∧ Q ((s.utcb u).mr i) s := by
  rw [getMr, wp_bind, wp_check, liftM_eq, wp_lift, Kernel.getMr, wp_bind, wp_readUtcb]
  simp [hu, Register.InRange]

theorem wp_getBr (hu : (s.tcb p).utcb = some u) {Q : Word → KState → Prop} :
    wp IsTrap (getBr p i) Q s ↔ i < ipcNumBr ∧ Q ((s.utcb u).br i) s := by
  rw [getBr, wp_bind, wp_check, liftM_eq, wp_lift, Kernel.getBr, wp_bind, wp_readUtcb]
  simp [hu, Register.InRange]

theorem wp_copyMr (hu : (s.tcb src).utcb = some u) (hv : (s.tcb dst).utcb = some v)
    {Q : Unit → KState → Prop} :
    wp IsTrap (copyMr dst src i) Q s ↔ i < ipcNumMr ∧ Q () { s with
      utcb := Function.update s.utcb v
        { s.utcb v with mr := Function.update (s.utcb v).mr i ((s.utcb u).mr i) } } := by
  rw [copyMr, wp_bind, wp_check, liftM_eq, wp_lift, Kernel.copyMr, wp_bind, Kernel.getMr, wp_bind,
    wp_readUtcb]
  simp [hu, hv, Register.InRange, setMr, wp_modUtcb]

/-! ## The unchecked computation -/

/-- `k` is `c` without the checks. -/
def Erases (c : Checked α) (k : Kernel α) : Prop := ∀ s, match c s with
  | .ok r => k s = .ok r
  | .error (.trap t) => k s = .error t
  | .error (.range _) => True

namespace Erases

theorem lift (k : Kernel α) : Erases (lift k) k := by
  intro s
  unfold Checked.lift
  cases k s <;> rfl

theorem pure (a : α) : Erases (pure a) (pure a) := fun _ => rfl

theorem bind {c : Checked α} {k : Kernel α} {f : α → Checked β} {g : α → Kernel β}
    (hc : Erases c k) (hf : ∀ a, Erases (f a) (g a)) : Erases (c >>= f) (k >>= g) := by
  intro s
  have hs := hc s
  rw [bind_apply, bind_apply]
  cases hrun : c s with
  | ok r =>
    rw [hrun] at hs
    rw [hs]
    exact hf r.1 r.2
  | error e =>
    rw [hrun] at hs
    cases e with
    | trap t =>
      have hk : k s = .error t := hs
      rw [hk]
    | range r => trivial

/-- A check has no effect of its own. -/
theorem check {r : Register} {f : Unit → Checked β} {k : Kernel β} (hf : Erases (f ()) k) :
    Erases (Checked.check r >>= f) k := by
  intro s
  rw [Checked.check, bind_apply]
  by_cases hr : r.InRange
  · rw [if_pos hr]
    exact hf s
  · rw [if_neg hr]
    trivial

theorem ite {P : Prop} [Decidable P] {c c' : Checked α} {k k' : Kernel α} (h : Erases c k)
    (h' : Erases c' k') : Erases (if P then c else c') (if P then k else k') := by
  split
  · exact h
  · exact h'

theorem getMr : Erases (getMr p i) (Kernel.getMr p i) := check (lift _)

theorem getBr : Erases (getBr p i) (Kernel.getBr p i) := check (lift _)

theorem copyMr : Erases (copyMr dst src i) (Kernel.copyMr dst src i) := check (lift _)

theorem stringItem {item : MsgItem} :
    Erases (stringItem src dst x item) (Kernel.stringItem src dst x item) := by
  refine bind copyMr fun _ => ite (lift _) ?_
  refine bind getMr fun _ => bind getBr fun _ => ite (lift _) ?_
  exact bind getBr fun _ => ite (lift _) (pure _)

theorem transferItem : Erases (transferItem src dst x) (Kernel.transferItem src dst x) := by
  refine ite (bind getMr fun _ => ite ?_ (ite stringItem (lift _))) (lift _)
  refine check (bind getBr fun _ => ite (lift _) ?_)
  exact bind copyMr fun _ => bind copyMr fun _ => pure _

theorem startCopy : Erases (startCopy src dst x c) (Kernel.startCopy src dst x c) := check (lift _)

theorem skipBuffer {n brIdx : Nat} {item : MsgItem} :
    Erases (skipBuffer dst n brIdx item) (Kernel.skipBuffer dst n brIdx item) := by
  induction n generalizing brIdx item with
  | zero => exact fun _ => rfl
  | succ n ih => exact ite (pure _) (check (ite (bind getBr fun _ => ih) (pure _)))

theorem nextBuffer : Erases (nextBuffer src dst x c) (Kernel.nextBuffer src dst x c) := by
  refine ite (pure _) (ite (bind getBr fun _ => pure _) (ite (ite (lift _) ?_) (lift _)))
  exact bind getBr fun _ => bind getBr fun _ => ite (lift _) (pure _)

theorem finishCopy {copyLength len : Word} :
    Erases (finishCopy src dst x c copyLength len)
      (Kernel.finishCopy src dst x c copyLength len) := by
  refine bind (lift _) fun _ => ite (lift _) (ite nextBuffer (ite ?_ (ite (ite (lift _) ?_) ?_)))
  · exact bind getMr fun _ => nextBuffer
  · exact bind getMr fun _ => bind getMr fun _ => ite (lift _) nextBuffer
  · exact bind skipBuffer fun _ => pure _

/-- The checked iteration is the kernel's, up to an access behind the files. -/
theorem transferStep : Erases (transferStep src dst x) (Kernel.transferStep src dst x) := by
  unfold Checked.transferStep Kernel.transferStep
  cases x.point with
  | items => exact transferItem
  | string c => exact startCopy
  | copying c copyLength len => exact finishCopy

end Erases

end Checked

/-! ## The state of a transfer -/

/-- The transfer stands at a part of a send string and a part of a string buffer, of which the
string fits into the message and the buffer into the buffer registers and the place behind them. -/
structure StringCopy.Placed (c : StringCopy) (srcIdx totalMrs brIdx : Nat) : Prop where
  srcPos : 0 < c.srcPtridx
  srcPart : c.srcPtridx ≤ c.srcItem.getStringPtrCount
  srcFits : srcIdx + c.srcItem.getStringPtrCount ≤ totalMrs
  dstPos : 0 < c.dstPtridx
  dstPart : c.dstPtridx ≤ c.dstItem.getStringPtrCount
  dstFits : brIdx + c.dstItem.getStringPtrCount ≤ ipcNumBr

/-- What the checks of `extended_transfer` establish, whatever the registers hold. -/
def Xfer.Sound (x : Xfer) : Prop :=
  x.totalMrs ≤ ipcNumMr ∧
    match x.point with
    | .items => x.acceptStrings → x.brIdx < ipcNumBr
    | .string c => c.Placed x.srcIdx x.totalMrs x.brIdx
    | .copying c _ _ => c.Placed x.srcIdx x.totalMrs x.brIdx

/-- Where a transfer can stand; between two iterations anything may happen to the state. -/
inductive Transferring (src dst : TcbPtr) : Xfer → Prop
  | start {msgtag : MsgTag} {x : Xfer} {s t : KState} :
    extendedTransfer src dst msgtag s = .ok (x, t) → Transferring src dst x
  | step {x y : Xfer} {s t : KState} : Transferring src dst x →
    transferStep src dst x s = .ok (.more y, t) → Transferring src dst y

/-- The result of an iteration, if it is not the last, is sound. -/
def XferResult.Sound : XferResult → Prop
  | .more x => x.Sound
  | .done _ => True

theorem MsgItem.getStringPtrCount_pos (item : MsgItem) : 0 < item.getStringPtrCount :=
  Nat.succ_pos _

theorem extendedTransfer_sound {msgtag : MsgTag} :
    Returns Xfer.Sound (extendedTransfer src dst msgtag) := by
  rw [extendedTransfer]
  split
  · intro s x t h
    cases h
  · rename_i hle
    iterate 6 refine .bind fun _ => ?_
    exact .pure ⟨Nat.le_of_not_lt hle, fun _ => Nat.lt_of_sub_eq_succ rfl⟩

theorem messageOverflow_sound : Returns XferResult.Sound (messageOverflow src dst x) := by
  rw [messageOverflow]
  iterate 3 refine .bind fun _ => ?_
  exact .pure trivial

theorem transferDone_sound : Returns XferResult.Sound (transferDone src x) := by
  rw [transferDone]
  iterate 2 refine .bind fun _ => ?_
  exact .pure trivial

theorem stringItem_sound {item : MsgItem} (hx : x.totalMrs ≤ ipcNumMr) :
    Returns XferResult.Sound (stringItem src dst x item) := by
  rw [stringItem]
  refine .bind fun _ => ?_
  split
  · exact messageOverflow_sound
  · rename_i hsrc
    refine .bind fun _ => .bind fun _ => ?_
    dsimp only
    split
    · exact messageOverflow_sound
    · rename_i hdst
      refine .bind fun _ => ?_
      split
      · exact messageOverflow_sound
      · exact .pure ⟨hx,
          { srcPos := Nat.one_pos
            srcPart := item.getStringPtrCount_pos
            srcFits := Nat.le_of_not_lt (not_or.mp hsrc).2
            dstPos := Nat.one_pos
            dstPart := MsgItem.getStringPtrCount_pos _
            dstFits := Nat.le_of_not_lt hdst }⟩

theorem transferItem_sound (hx : x.Sound) (hp : x.point = .items) :
    Returns XferResult.Sound (transferItem src dst x) := by
  obtain ⟨htotal, hpoint⟩ := hx
  rw [hp] at hpoint
  rw [transferItem]
  split
  · refine .bind fun _ => ?_
    dsimp only
    split
    · refine .bind fun _ => ?_
      split
      · exact messageOverflow_sound
      · iterate 2 refine .bind fun _ => ?_
        refine .pure ⟨htotal, ?_⟩
        simpa only [hp] using hpoint
    · split
      · exact stringItem_sound htotal
      · exact messageOverflow_sound
  · exact transferDone_sound

theorem startCopy_sound (hx : c.Placed x.srcIdx x.totalMrs x.brIdx)
    (htotal : x.totalMrs ≤ ipcNumMr) :
    Returns XferResult.Sound (startCopy src dst x c) := by
  rw [startCopy]
  refine .bind fun _ => ?_
  dsimp only
  refine .bind fun _ => .bind fun _ => ?_
  split
  · intro s r t h
    cases h
  · exact .bind fun _ => .pure ⟨htotal, hx⟩

/-- The new buffer index is in range if the loop says so. -/
theorem skipBuffer_returns {n brIdx : Nat} {item : MsgItem} :
    Returns (fun r => r.2 = true → r.1 < ipcNumBr) (skipBuffer dst n brIdx item) := by
  induction n generalizing brIdx item with
  | zero =>
    intro s r t h
    cases h
  | succ n ih =>
    rw [skipBuffer]
    split
    · exact .pure nofun
    · rename_i hlt
      split
      · exact .bind fun _ => ih
      · exact .pure fun _ => Nat.lt_of_not_le hlt

theorem nextBuffer_sound (hx : c.Placed x.srcIdx x.totalMrs x.brIdx)
    (htotal : x.totalMrs ≤ ipcNumMr) :
    Returns XferResult.Sound (nextBuffer src dst x c) := by
  rw [nextBuffer]
  split
  · exact .pure ⟨htotal, hx⟩
  · split
    · rename_i hpart
      refine .bind fun _ => .pure ⟨htotal, ?_⟩
      exact
        { srcPos := hx.srcPos
          srcPart := hx.srcPart
          srcFits := hx.srcFits
          dstPos := Nat.succ_pos _
          dstPart := hpart
          dstFits := hx.dstFits }
    · split
      · dsimp only
        split
        · exact messageOverflow_sound
        · refine .bind fun _ => .bind fun _ => ?_
          split
          · exact messageOverflow_sound
          · rename_i hfits
            refine .pure ⟨htotal, ?_⟩
            exact
              { srcPos := hx.srcPos
                srcPart := hx.srcPart
                srcFits := hx.srcFits
                dstPos := Nat.one_pos
                dstPart := MsgItem.getStringPtrCount_pos _
                dstFits := Nat.le_of_not_lt hfits }
      · exact messageOverflow_sound

theorem finishCopy_sound {copyLength len : Word} (hx : c.Placed x.srcIdx x.totalMrs x.brIdx)
    (htotal : x.totalMrs ≤ ipcNumMr) :
    Returns XferResult.Sound (finishCopy src dst x c copyLength len) := by
  rw [finishCopy]
  refine .bind fun _ => ?_
  dsimp only
  split
  · exact messageOverflow_sound
  · split
    · exact nextBuffer_sound
        { srcPos := hx.srcPos, srcPart := hx.srcPart, srcFits := hx.srcFits
          dstPos := hx.dstPos, dstPart := hx.dstPart, dstFits := hx.dstFits } htotal
    · split
      · rename_i hpart
        refine .bind fun _ => nextBuffer_sound ?_ htotal
        exact
          { srcPos := Nat.succ_pos _
            srcPart := hpart
            srcFits := hx.srcFits
            dstPos := hx.dstPos
            dstPart := hx.dstPart
            dstFits := hx.dstFits }
      · split
        · split
          · exact messageOverflow_sound
          · refine .bind fun _ => .bind fun _ => ?_
            split
            · exact messageOverflow_sound
            · rename_i hfits
              refine nextBuffer_sound ?_ htotal
              exact
                { srcPos := Nat.one_pos
                  srcPart := MsgItem.getStringPtrCount_pos _
                  srcFits := Nat.le_of_not_lt hfits
                  dstPos := hx.dstPos
                  dstPart := hx.dstPart
                  dstFits := hx.dstFits }
        · intro s r t h
          obtain ⟨⟨brIdx, more⟩, s1, hskip, hrest⟩ := bind_eq_ok.mp h
          cases hrest
          have hmore := skipBuffer_returns _ _ _ hskip
          refine ⟨htotal, fun haccept => hmore ?_⟩
          exact (Bool.and_eq_true _ _ ▸ haccept).2

theorem transferStep_sound (hx : x.Sound) : Returns XferResult.Sound (transferStep src dst x) := by
  have hpoint := hx.2
  rw [transferStep]
  cases hp : x.point with
  | items => exact transferItem_sound hx hp
  | string c =>
    rw [hp] at hpoint
    exact startCopy_sound hpoint hx.1
  | copying c copyLength len =>
    rw [hp] at hpoint
    exact finishCopy_sound hpoint hx.1

/-- Every state of a transfer is sound. -/
theorem Transferring.sound (h : Transferring src dst x) : x.Sound := by
  induction h with
  | start hstart => exact extendedTransfer_sound _ _ _ hstart
  | step _ hstep ih => exact transferStep_sound ih _ _ _ hstep

/-! ## The places behind the files -/

/-- A buffer register of the thread in `p`. -/
def KState.buffer (s : KState) (p : TcbPtr) (i : Nat) : Word := (s.utcbOf p).br i

/-- The next part of the send string needs the place behind the message registers: a pointer of the
item, or the first pointer of the item that continues it. -/
def Xfer.PartOverruns (x : Xfer) (c : StringCopy) : Prop :=
  if c.srcPtridx < c.srcItem.getStringPtrCount then x.srcIdx + c.srcPtridx + 1 = ipcNumMr
  else c.srcItem.isStringCompound ∧ x.srcIdx + c.srcPtridx + 2 = ipcNumMr ∧ x.totalMrs = ipcNumMr

/-- The next part of the string buffer needs the place behind the buffer registers. -/
def Xfer.BufferOverruns (x : Xfer) (c : StringCopy) : Prop :=
  if c.dstPtridx < c.dstItem.getStringPtrCount then x.brIdx + c.dstPtridx + 1 = ipcNumBr
  else c.dstItem.isStringCompound ∧ x.brIdx + c.dstPtridx + 2 = ipcNumBr

/-- The send string has more data behind a copy of `len` bytes. -/
def KState.SendsMore (s : KState) (src : TcbPtr) (x : Xfer) (c : StringCopy) (len : Word) : Prop :=
  c.srcLen ≠ len ∨ c.srcPtridx < c.srcItem.getStringPtrCount ∨
    c.srcItem.isStringCompound ∧ x.srcIdx + c.srcPtridx + 2 ≤ x.totalMrs ∧
      x.srcIdx + c.srcPtridx + 1 +
        (MsgItem.mk (s.reg src (x.srcIdx + c.srcPtridx + 1))).getStringPtrCount ≤ x.totalMrs

/-- The iteration needs the place behind the message registers, or that behind the buffer
registers. -/
def KState.Overruns (s : KState) (src dst : TcbPtr) (x : Xfer) : Prop :=
  match x.point with
  | .items =>
    let item : MsgItem := ⟨s.reg src x.srcIdx⟩
    let buffer : MsgItem := ⟨s.buffer dst x.brIdx⟩
    x.srcIdx < x.totalMrs ∧
      ((item.isMapItem ∨ item.isGrantItem) ∧ x.srcIdx + 1 = ipcNumMr ∨
        item.isStringItem ∧ x.acceptStrings ∧
          x.srcIdx + item.getStringPtrCount ≤ x.totalMrs ∧
          (x.srcIdx + 1 = ipcNumMr ∨
            x.brIdx + 1 = ipcNumBr ∧ x.brIdx + buffer.getStringPtrCount ≤ ipcNumBr))
  | .string c => x.srcIdx + c.srcPtridx = ipcNumMr
  | .copying c copyLength len =>
    copyLength ≤ len ∧
      (c.srcLen = len ∧ x.PartOverruns c ∨
        s.SendsMore src x c len ∧ c.dstLen = len ∧ x.BufferOverruns c)

/-- Every register that the iteration accesses is inside its file. -/
def KState.InBounds (s : KState) (src dst : TcbPtr) (x : Xfer) : Prop :=
  wp Checked.IsTrap (Checked.transferStep src dst x) (fun _ _ => True) s

theorem KState.reg_eq (hu : (s.tcb p).utcb = some u) : s.reg p i = (s.utcb u).mr i := by
  rw [reg, utcbOf_eq hu]

theorem KState.buffer_eq (hu : (s.tcb p).utcb = some u) : s.buffer p i = (s.utcb u).br i := by
  rw [buffer, utcbOf_eq hu]

namespace Checked

theorem wp_stringItem (hu : (s.tcb src).utcb = some u) (hv : (s.tcb dst).utcb = some v)
    {item : MsgItem} :
    wp IsTrap (stringItem src dst x item) (fun _ _ => True) s ↔ x.srcIdx < ipcNumMr ∧
      (x.acceptStrings → x.srcIdx + item.getStringPtrCount ≤ x.totalMrs →
        x.srcIdx + 1 < ipcNumMr ∧ x.brIdx < ipcNumBr ∧
          (x.brIdx + (MsgItem.mk ((s.utcb v).br x.brIdx)).getStringPtrCount ≤ ipcNumBr →
            x.brIdx + 1 < ipcNumBr)) := by
  have hend : ∀ {item : MsgItem} {r : KState} {y : Xfer},
      wp IsTrap (if !item.isStringItem then liftM (Kernel.messageOverflow src dst x)
        else pure (.more y) : Checked XferResult) (fun _ _ => True) r := by
    intro item r y
    split
    · exact wp_lift_true
    · trivial
  rw [stringItem, wp_bind, wp_copyMr hu hv]
  refine and_congr_right fun _ => ?_
  rw [wp_ite]
  split
  · rename_i hstop
    refine iff_of_true wp_lift_true fun haccept hfits => ?_
    rcases hstop with hno | hover
    · simp [haccept] at hno
    · omega
  · rename_i hgo
    obtain ⟨haccept, hfits⟩ := not_or.mp hgo
    have hu' : ∀ w, (({ s with utcb := w } : KState).tcb src).utcb = some u := fun _ => hu
    have hv' : ∀ w, (({ s with utcb := w } : KState).tcb dst).utcb = some v := fun _ => hv
    rw [wp_bind, wp_getMr (hu' _), wp_bind, wp_getBr (hv' _), wp_ite]
    simp only [Function.update_self]
    have haccept : x.acceptStrings = true := by simpa using haccept
    have hfits : x.srcIdx + item.getStringPtrCount ≤ x.totalMrs := by omega
    simp only [haccept, hfits, forall_true_left]
    refine and_congr_right fun _ => and_congr_right fun _ => ?_
    split
    · rename_i hover
      refine iff_of_true wp_lift_true fun hle => ?_
      omega
    · rename_i hle
      rw [wp_bind, wp_getBr (hv' _)]
      refine ⟨fun h _ => h.1, fun h => ⟨h (by omega), ?_⟩⟩
      exact hend

/-- A map or grant item: both its words are read and copied. -/
theorem wp_mapItem (hu : (s.tcb src).utcb = some u) (hv : (s.tcb dst).utcb = some v)
    (hlt : x.srcIdx < ipcNumMr) :
    wp IsTrap (do
      check (.mr (x.srcIdx + 1))
      let acceptor : Acceptor := ⟨← getBr dst 0⟩
      if acceptor.getRcvWindow.isNilFpage then liftM (Kernel.messageOverflow src dst x)
      else
        copyMr dst src x.srcIdx
        copyMr dst src (x.srcIdx + 1)
        pure (.more { x with srcIdx := x.srcIdx + 2 })) (fun _ _ => True) s ↔
      x.srcIdx + 1 < ipcNumMr := by
  have hu' : ∀ w, (({ s with utcb := w } : KState).tcb src).utcb = some u := fun _ => hu
  have hv' : ∀ w, (({ s with utcb := w } : KState).tcb dst).utcb = some v := fun _ => hv
  rw [wp_bind, wp_check, wp_bind, wp_getBr hv, wp_ite]
  refine ⟨fun h => h.1, fun hlast => ⟨hlast, by decide, ?_⟩⟩
  split
  · exact wp_lift_true
  · rw [wp_bind, wp_copyMr hu hv, wp_bind, wp_copyMr (hu' _) (hv' _)]
    exact ⟨hlt, hlast, trivial⟩

theorem MsgItem.not_isStringItem {item : MsgItem} (h : item.isMapItem ∨ item.isGrantItem) :
    item.isStringItem = false := by
  simp only [MsgItem.isMapItem, MsgItem.isGrantItem, MsgItem.isStringItem, beq_iff_eq,
    decide_eq_false_iff_not] at h ⊢
  omega

/-- The iteration of the item loop. -/
theorem wp_transferItem (hu : (s.tcb src).utcb = some u) (hv : (s.tcb dst).utcb = some v)
    (hx : x.totalMrs ≤ ipcNumMr) (hbr : x.acceptStrings → x.brIdx < ipcNumBr)
    (hp : x.point = .items) :
    wp IsTrap (transferItem src dst x) (fun _ _ => True) s ↔ ¬s.Overruns src dst x := by
  have hr : s.reg src x.srcIdx = (s.utcb u).mr x.srcIdx := KState.reg_eq hu
  have hb : s.buffer dst x.brIdx = (s.utcb v).br x.brIdx := KState.buffer_eq hv
  rw [KState.Overruns, hp]
  dsimp only
  rw [transferItem, wp_ite, hr, hb]
  split
  · rename_i hlt
    have hmr : x.srcIdx < ipcNumMr := Nat.lt_of_lt_of_le hlt hx
    rw [wp_bind, wp_getMr hu]
    dsimp only
    rw [wp_ite]
    split
    · rename_i hmap
      rw [wp_mapItem hu hv hmr, MsgItem.not_isStringItem hmap]
      simp only [hmap, hlt, hmr, true_and, Bool.false_eq_true, false_and, or_false]
      omega
    · rename_i hmap
      rw [wp_ite]
      split
      · rename_i hstring
        rw [wp_stringItem hu hv]
        simp only [hmap, hlt, hmr, hstring, true_and, false_and, false_or]
        cases haccept : x.acceptStrings with
        | true =>
          have hbr := hbr haccept
          simp only [forall_true_left, true_and, hbr]
          omega
        | false => simp
      · rename_i hstring
        refine iff_of_true ⟨hmr, wp_lift_true⟩ ?_
        simp [hmap, hstring]
  · rename_i hlt
    exact iff_of_true wp_lift_true fun h => hlt h.1

theorem wp_nextBuffer (hv : (s.tcb dst).utcb = some v) (hx : c.Placed x.srcIdx x.totalMrs x.brIdx) :
    wp IsTrap (nextBuffer src dst x c) (fun _ _ => True) s ↔
      ¬(c.dstLen = 0 ∧ x.BufferOverruns c) := by
  have hfits := hx.dstFits
  rw [nextBuffer, wp_ite, Xfer.BufferOverruns]
  split
  · rename_i hlen
    exact iff_of_true trivial fun h => hlen h.1
  · rename_i hlen
    have hlen : c.dstLen = 0 := not_not.mp hlen
    rw [wp_ite]
    simp only [hlen, true_and]
    split
    · rename_i hpart
      rw [wp_bind, wp_getBr hv]
      simp only [wp_pure, and_true]
      omega
    · rename_i hpart
      rw [wp_ite]
      cases hcomp : c.dstItem.isStringCompound with
      | true =>
        simp only [if_true, true_and]
        rw [wp_ite]
        split
        · refine iff_of_true wp_lift_true ?_
          omega
        · rw [wp_bind, wp_getBr hv, wp_bind, wp_getBr hv, wp_ite]
          refine ⟨fun h => ?_, fun h => ⟨by omega, by omega, ?_⟩⟩
          · have hlast := h.2.1
            omega
          · split
            · exact wp_lift_true
            · trivial
      | false =>
        simp only [Bool.false_eq_true, if_false, false_and, not_false_eq_true, iff_true]
        exact wp_lift_true

/-- The loop that skips a buffer stays in the buffer registers. -/
theorem wp_skipBuffer (hv : (s.tcb dst).utcb = some v) {n brIdx : Nat} {item : MsgItem}
    {Q : Nat × Bool → KState → Prop} (hQ : ∀ r, Q r s) :
    wp IsTrap (skipBuffer dst n brIdx item) Q s := by
  induction n generalizing brIdx item with
  | zero => exact ⟨_, rfl⟩
  | succ n ih =>
    rw [skipBuffer, wp_ite]
    split
    · exact hQ _
    · rename_i hlt
      have hlt : brIdx + item.getStringPtrCount + 1 < ipcNumBr := Nat.lt_of_not_le hlt
      rw [wp_bind, wp_check, wp_ite]
      refine ⟨hlt, ?_⟩
      split
      · rw [wp_bind, wp_getBr hv]
        exact ⟨hlt, ih⟩
      · exact hQ _

theorem sub_eq_zero_iff {a b : Word} : a - b = 0 ↔ a = b := by
  constructor
  · intro h
    bv_omega
  · rintro rfl
    bv_omega

/-- The copy loop behind the `memcpy`. -/
theorem wp_finishCopy (hu : (s.tcb src).utcb = some u) (hv : (s.tcb dst).utcb = some v)
    {copyLength len : Word} (hx : c.Placed x.srcIdx x.totalMrs x.brIdx)
    (htotal : x.totalMrs ≤ ipcNumMr) (hp : x.point = .copying c copyLength len) :
    wp IsTrap (finishCopy src dst x c copyLength len) (fun _ _ => True) s ↔
      ¬s.Overruns src dst x := by
  have hr : s.reg src (x.srcIdx + c.srcPtridx + 1) = (s.utcb u).mr (x.srcIdx + c.srcPtridx + 1) :=
    KState.reg_eq hu
  obtain ⟨hsrcPos, hsrcPart, hsrcFits, hdstPos, hdstPart, hdstFits⟩ := hx
  rw [KState.Overruns, hp]
  dsimp only
  rw [finishCopy, wp_bind, liftM_eq, wp_lift, wp_modTcb, wp_ite]
  generalize hs1 : Function.update s.tcb src _ = tcb
  have hu1 : (tcb src).utcb = some u := by
    rw [← hs1, Function.update_self]
    exact hu
  have hv1 : (tcb dst).utcb = some v := by
    rw [← hs1]
    rcases eq_or_ne dst src with rfl | hne
    · rw [Function.update_self]
      exact hv
    · rw [Function.update_of_ne hne]
      exact hv
  have hnext : ∀ {y : Xfer} {d : StringCopy}, d.Placed y.srcIdx y.totalMrs y.brIdx →
      (wp IsTrap (nextBuffer src dst y d) (fun _ _ => True) { s with tcb := tcb } ↔
        ¬(d.dstLen = 0 ∧ y.BufferOverruns d)) := fun h => wp_nextBuffer hv1 h
  have hget : ∀ {i : Nat} {Q : Word → KState → Prop},
      wp IsTrap (getMr src i) Q { s with tcb := tcb } ↔
        i < ipcNumMr ∧ Q ((s.utcb u).mr i) { s with tcb := tcb } := wp_getMr hu1
  split
  · rename_i hcut
    refine iff_of_true wp_lift_true fun h => ?_
    bv_omega
  · rename_i hfull
    have hfull : copyLength ≤ len := BitVec.not_lt.mp hfull
    simp only [hfull, true_and, KState.SendsMore, hr, Xfer.PartOverruns]
    rw [wp_ite]
    split
    · rename_i hmore
      have hmore : c.srcLen ≠ len := fun heq => hmore (sub_eq_zero_iff.mpr heq)
      refine Iff.trans (hnext ⟨hsrcPos, hsrcPart, hsrcFits, hdstPos, hdstPart, hdstFits⟩) ?_
      rw [sub_eq_zero_iff]
      simp only [hmore, false_and, false_or, ne_eq, not_false_eq_true, true_or, true_and]
      rfl
    · rename_i hmore
      have hmore : c.srcLen = len := sub_eq_zero_iff.mp (not_not.mp hmore)
      simp only [hmore, ne_eq, not_true_eq_false, false_or, true_and]
      rw [wp_ite]
      split
      · rename_i hpart
        rw [wp_bind, hget]
        simp only [hpart, true_or, true_and]
        refine Iff.trans (and_congr_right fun _ =>
          hnext ⟨Nat.succ_pos _, hpart, hsrcFits, hdstPos, hdstPart, hdstFits⟩) ?_
        have hlast : x.srcIdx + c.srcPtridx + 1 < ipcNumMr ↔
            ¬x.srcIdx + c.srcPtridx + 1 = ipcNumMr := by omega
        rw [sub_eq_zero_iff, hlast, not_or]
        rfl
      · rename_i hpart
        simp only [hpart, false_or]
        rw [wp_ite]
        cases hcomp : c.srcItem.isStringCompound with
        | true =>
          simp only [if_true, true_and]
          rw [wp_ite]
          split
          · rename_i hover
            refine iff_of_true wp_lift_true ?_
            rintro (h | h) <;> omega
          · rename_i hitem
            have hitem : x.srcIdx + c.srcPtridx + 2 ≤ x.totalMrs := Nat.le_of_not_lt hitem
            have hlast : x.srcIdx + c.srcPtridx + 2 < ipcNumMr ↔
                ¬(x.srcIdx + c.srcPtridx + 2 = ipcNumMr ∧ x.totalMrs = ipcNumMr) := by omega
            have hfirst : x.srcIdx + c.srcPtridx + 1 < ipcNumMr := by omega
            rw [wp_bind, hget, wp_bind, hget, wp_ite, not_or]
            refine (and_iff_right hfirst).trans (and_congr hlast ?_)
            split
            · rename_i hover
              refine iff_of_true wp_lift_true fun h => ?_
              omega
            · rename_i hfits
              have hfits := Nat.le_of_not_lt hfits
              refine Iff.trans (hnext ⟨Nat.one_pos, MsgItem.getStringPtrCount_pos _, hfits, hdstPos,
                hdstPart, hdstFits⟩) ?_
              rw [sub_eq_zero_iff]
              simp only [hitem, hfits, true_and]
              rfl
        | false =>
          simp only [Bool.false_eq_true, if_false, false_and, or_false, not_false_eq_true, iff_true]
          rw [wp_bind]
          exact wp_skipBuffer hv1 fun _ => trivial

end Checked

/-- Two threads; the message registers of the first hold a map item in the last register. -/
def KState.fullMessage : KState :=
  { KState.zero .sample with
    tcb := fun p => { Tcb.zero with utcb := some (.user (if p = .idle then 0 else 1)) }
    utcb := fun u =>
      { Utcb.zero with
        mr := fun i =>
          if u = .user 0 ∧ i = 63 then 8 else 0 } }

/-- The start of a transfer between the two threads. -/
theorem exists_transferring (tag : MsgTag) (P : Xfer → Bool)
    (h : returnsWith (extendedTransfer .idle (getTcb sigma0Tid) tag) (fun x _ => P x)
      .fullMessage = true) :
    ∃ x, Transferring .idle (getTcb sigma0Tid) x ∧ P x = true := by
  obtain ⟨x, t, hrun, hP⟩ := exists_of_returnsWith h
  exact ⟨x, .start hrun, hP⟩

end L4Thread
