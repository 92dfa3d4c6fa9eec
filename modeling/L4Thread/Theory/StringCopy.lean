import L4Thread.Lib.Scatter
import L4Thread.Theory.CopyLimit
import L4Thread.Theory.TransferEnds

/-!
# What a string item copies

The bytes of a send string and of a string buffer come in fragments: the substrings of an item and
of the items that continue it. The copy loop walks both at once. Between two iterations the threads
may do anything that leaves the message registers of the sender and the buffer registers of the
receiver.
-/

namespace L4Thread

open TrapM Kernel Scatter

/-! ## Strings in registers -/

/-- The substrings of the item at a register behind the first `k` ones. -/
def fragments (regs : Nat → Word) (i k : Nat) : List (Fragment 64) :=
  let item : MsgItem := ⟨regs i⟩
  (List.range (item.getStringPtrCount - k)).map fun j =>
    (regs (i + k + 1 + j), BitVec.ofNat 64 item.getStringLength)

/-- The register behind an item. -/
def behindItem (regs : Nat → Word) (i : Nat) : Nat :=
  i + (MsgItem.mk (regs i)).getStringPtrCount + 1

/-- The item is continued by the next one, which is inside the registers. -/
def Continued (regs : Nat → Word) (limit i : Nat) : Prop :=
  (MsgItem.mk (regs i)).isStringCompound = true ∧ behindItem regs i + 1 ≤ limit ∧
    behindItem regs i + (MsgItem.mk (regs (behindItem regs i))).getStringPtrCount ≤ limit

instance (regs : Nat → Word) (limit i : Nat) : Decidable (Continued regs limit i) :=
  inferInstanceAs (Decidable (_ ∧ _))

theorem lt_behindItem (regs : Nat → Word) (i : Nat) : i < behindItem regs i := by
  rw [behindItem]
  omega

/-- The substrings of the items that continue a string. -/
def continuation (regs : Nat → Word) (limit i : Nat) : List (Fragment 64) :=
  if Continued regs limit i then
    fragments regs (behindItem regs i) 0 ++ continuation regs limit (behindItem regs i)
  else []
termination_by limit - i
decreasing_by
  rename_i h
  have hlt := lt_behindItem regs i
  have hle := h.2.1
  omega

/-- The bytes of the string at a register. -/
def stringBytes (regs : Nat → Word) (limit i : Nat) : List Word :=
  bytes (fragments regs i 0 ++ continuation regs limit i)

/-- The last item of the string at a register. -/
def lastItem (regs : Nat → Word) (limit i : Nat) : Nat :=
  if Continued regs limit i then lastItem regs limit (behindItem regs i) else i
termination_by limit - i
decreasing_by
  rename_i h
  have hlt := lt_behindItem regs i
  have hle := h.2.1
  omega

/-- The string goes on behind the registers. -/
def CutOff (regs : Nat → Word) (limit i : Nat) : Prop :=
  (MsgItem.mk (regs (lastItem regs limit i))).isStringCompound = true

/-- The buffer register behind a string buffer, or one behind the registers. -/
def behindBuffer (br : Nat → Word) (i : Nat) : Nat :=
  if (MsgItem.mk (br i)).isStringCompound = true ∧ behindItem br i < ipcNumBr then
    behindBuffer br (behindItem br i)
  else behindItem br i
termination_by ipcNumBr - i
decreasing_by
  have hlt := lt_behindItem br i
  omega

section Strings

variable {regs : Nat → Word} {limit i k : Nat}

theorem fragments_cons (h : k < (MsgItem.mk (regs i)).getStringPtrCount) :
    fragments regs i k =
      (regs (i + k + 1), BitVec.ofNat 64 (MsgItem.mk (regs i)).getStringLength) ::
        fragments regs i (k + 1) := by
  obtain ⟨n, hn⟩ := Nat.exists_eq_add_of_lt h
  have hfirst : (MsgItem.mk (regs i)).getStringPtrCount - k = n + 1 := by omega
  have hrest : (MsgItem.mk (regs i)).getStringPtrCount - (k + 1) = n := by omega
  rw [fragments, fragments, hfirst, hrest, List.range_succ_eq_map, List.map_cons, List.map_map]
  refine congrArg₂ List.cons rfl (List.map_congr_left fun j _ => ?_)
  have hidx : i + k + 1 + (j + 1) = i + (k + 1) + 1 + j := by omega
  rw [Function.comp_apply, Nat.succ_eq_add_one, hidx]

theorem fragments_nil (h : (MsgItem.mk (regs i)).getStringPtrCount ≤ k) :
    fragments regs i k = [] := by
  rw [fragments, Nat.sub_eq_zero_of_le h]
  rfl

theorem continuation_of_not (h : ¬Continued regs limit i) : continuation regs limit i = [] := by
  rw [continuation, if_neg h]

theorem continuation_of (h : Continued regs limit i) : continuation regs limit i =
    fragments regs (behindItem regs i) 0 ++ continuation regs limit (behindItem regs i) := by
  rw [continuation, if_pos h]

theorem lastItem_of_not (h : ¬Continued regs limit i) : lastItem regs limit i = i := by
  rw [lastItem, if_neg h]

theorem lastItem_of (h : Continued regs limit i) :
    lastItem regs limit i = lastItem regs limit (behindItem regs i) := by
  rw [lastItem, if_pos h]

theorem behindBuffer_of_not
    (h : ¬((MsgItem.mk (regs i)).isStringCompound = true ∧ behindItem regs i < ipcNumBr)) :
    behindBuffer regs i = behindItem regs i := by
  rw [behindBuffer, if_neg h]

theorem behindBuffer_of (hcomp : (MsgItem.mk (regs i)).isStringCompound = true)
    (hlt : behindItem regs i < ipcNumBr) :
    behindBuffer regs i = behindBuffer regs (behindItem regs i) := by
  rw [behindBuffer, if_pos ⟨hcomp, hlt⟩]

end Strings

/-! ## Places in the copy loop -/

variable {s t : KState} {src dst : TcbPtr} {x y x₀ : Xfer} {c : StringCopy} {mr br : Nat → Word}
  {P : List (Word × Word)} {len : Word}

/-- What is left of the send string. -/
def sendRest (mr : Nat → Word) (x : Xfer) (c : StringCopy) : List Word :=
  bytes ((c.srcAddr, c.srcLen) ::
    (fragments mr x.srcIdx c.srcPtridx ++ continuation mr x.totalMrs x.srcIdx))

/-- What is left of the string buffer. -/
def bufferRest (br : Nat → Word) (x : Xfer) (c : StringCopy) : List Word :=
  bytes ((c.dstAddr, c.dstLen) ::
    (fragments br x.brIdx c.dstPtridx ++ continuation br ipcNumBr x.brIdx))

/-- The copy loop for the string item at `x₀` has copied the pairs and stands at `c`. -/
structure CopyAt (mr br : Nat → Word) (x₀ : Xfer) (P : List (Word × Word)) (x : Xfer)
    (c : StringCopy) : Prop where
  placed : c.Placed x.srcIdx x.totalMrs x.brIdx
  srcItem : c.srcItem = ⟨mr x.srcIdx⟩
  dstItem : c.dstItem = ⟨br x.brIdx⟩
  msgtag : x.msgtag = x₀.msgtag
  totalMrs : x.totalMrs = x₀.totalMrs
  accept : x.acceptStrings = (MsgItem.mk (br x₀.brIdx)).moreStrings
  totalLen : x.totalLen = x₀.totalLen + BitVec.ofNat 64 P.length
  passed : Passed (stringBytes mr x₀.totalMrs x₀.srcIdx) (stringBytes br ipcNumBr x₀.brIdx) P
    (sendRest mr x c) (bufferRest br x c)
  lastItem : lastItem mr x.totalMrs x.srcIdx = lastItem mr x₀.totalMrs x₀.srcIdx
  behindBuffer : behindBuffer br x.brIdx = behindBuffer br x₀.brIdx

theorem StringCopy.copyLength_le (c : StringCopy) :
    c.copyLength ≤ c.srcLen ∧ c.copyLength ≤ c.dstLen := by
  rw [copyLength]
  split
  · rename_i hlt
    exact ⟨BitVec.le_of_lt hlt, BitVec.le_refl _⟩
  · rename_i hle
    exact ⟨BitVec.le_refl _, BitVec.not_lt.1 hle⟩

/-- The copy that is asked for at a place. -/
def StringCopy.copied (c : StringCopy) (len : Word) : List (Word × Word) :=
  (segment c.srcAddr len.toNat).zip (segment c.dstAddr len.toNat)

/-- The place behind a copy. -/
def StringCopy.advance (c : StringCopy) (len : Word) : StringCopy :=
  { c with
    srcLen := c.srcLen - len, dstLen := c.dstLen - len
    srcAddr := c.srcAddr + len, dstAddr := c.dstAddr + len }

namespace CopyAt

/-- A copy within both parts. -/
theorem advance (h : CopyAt mr br x₀ P x c) (hsrc : len ≤ c.srcLen) (hdst : len ≤ c.dstLen) :
    CopyAt mr br x₀ (P ++ c.copied len) { x with totalLen := x.totalLen + len }
      (c.advance len) := by
  have hpassed := h.passed
  rw [sendRest, bytes_cut hsrc, bufferRest, bytes_cut hdst] at hpassed
  have hlen : (P ++ c.copied len).length = P.length + len.toNat := by
    rw [List.length_append, StringCopy.copied, List.length_zip, length_segment, length_segment,
      Nat.min_self]
  exact
    { placed :=
        { srcPos := h.placed.srcPos, srcPart := h.placed.srcPart, srcFits := h.placed.srcFits
          dstPos := h.placed.dstPos, dstPart := h.placed.dstPart, dstFits := h.placed.dstFits }
      srcItem := h.srcItem
      dstItem := h.dstItem
      msgtag := h.msgtag
      totalMrs := h.totalMrs
      accept := h.accept
      totalLen := by
        rw [h.totalLen, hlen, BitVec.ofNat_add, BitVec.ofNat_toNat, BitVec.setWidth_eq,
          BitVec.add_assoc]
      passed := hpassed.step (by rw [length_segment, length_segment])
      lastItem := h.lastItem
      behindBuffer := h.behindBuffer }

theorem moved {point : XferPoint} (h : CopyAt mr br x₀ P x c) :
    CopyAt mr br x₀ P { x with point } c :=
  { placed := h.placed, srcItem := h.srcItem, dstItem := h.dstItem, msgtag := h.msgtag
    totalMrs := h.totalMrs, accept := h.accept, totalLen := h.totalLen, passed := h.passed
    lastItem := h.lastItem, behindBuffer := h.behindBuffer }

/-- The next substring of the item. -/
theorem nextPart (h : CopyAt mr br x₀ P x c) (hdone : c.srcLen = 0)
    (hpart : c.srcPtridx < c.srcItem.getStringPtrCount) :
    CopyAt mr br x₀ P x
      { c with
        srcPtridx := c.srcPtridx + 1, srcAddr := mr (x.srcIdx + c.srcPtridx + 1)
        srcLen := BitVec.ofNat 64 c.srcItem.getStringLength } := by
  have hpassed := h.passed
  have hitem := hpart
  rw [h.srcItem] at hitem
  rw [sendRest, hdone, bytes_empty, fragments_cons hitem] at hpassed
  exact
    { placed :=
        { srcPos := Nat.succ_pos _, srcPart := hpart, srcFits := h.placed.srcFits
          dstPos := h.placed.dstPos, dstPart := h.placed.dstPart, dstFits := h.placed.dstFits }
      srcItem := h.srcItem
      dstItem := h.dstItem
      msgtag := h.msgtag
      totalMrs := h.totalMrs
      accept := h.accept
      totalLen := h.totalLen
      passed := by
        rw [sendRest, h.srcItem]
        exact hpassed
      lastItem := h.lastItem
      behindBuffer := h.behindBuffer }

/-- The place behind an item whose substrings have all been sent. -/
theorem lastPart (h : CopyAt mr br x₀ P x c) (hpart : ¬c.srcPtridx < c.srcItem.getStringPtrCount) :
    x.srcIdx + c.srcPtridx + 1 = behindItem mr x.srcIdx := by
  have hle := h.placed.srcPart
  rw [h.srcItem] at hpart hle
  rw [behindItem]
  omega

theorem continued_iff (h : CopyAt mr br x₀ P x c) : Continued mr x.totalMrs x.srcIdx ↔
    c.srcItem.isStringCompound = true ∧ behindItem mr x.srcIdx + 1 ≤ x.totalMrs ∧
      behindItem mr x.srcIdx + (MsgItem.mk (mr (behindItem mr x.srcIdx))).getStringPtrCount ≤
        x.totalMrs := by
  rw [Continued, h.srcItem]

/-- All substrings of the item have been sent. -/
theorem sendRest_eq (h : CopyAt mr br x₀ P x c) (hdone : c.srcLen = 0)
    (hpart : ¬c.srcPtridx < c.srcItem.getStringPtrCount) :
    sendRest mr x c = bytes (continuation mr x.totalMrs x.srcIdx) := by
  have hle := Nat.le_of_not_lt hpart
  rw [h.srcItem] at hle
  rw [sendRest, hdone, bytes_empty, fragments_nil hle, List.nil_append]

/-- The item that continues the string. -/
theorem nextSend (h : CopyAt mr br x₀ P x c) (hdone : c.srcLen = 0)
    (hpart : ¬c.srcPtridx < c.srcItem.getStringPtrCount)
    (hnext : Continued mr x.totalMrs x.srcIdx) :
    CopyAt mr br x₀ P { x with srcIdx := behindItem mr x.srcIdx }
      { c with
        srcItem := ⟨mr (behindItem mr x.srcIdx)⟩, srcPtridx := 1
        srcAddr := mr (behindItem mr x.srcIdx + 1)
        srcLen := BitVec.ofNat 64 (MsgItem.mk (mr (behindItem mr x.srcIdx))).getStringLength } := by
  have hpassed := h.passed
  rw [h.sendRest_eq hdone hpart, continuation_of hnext,
    fragments_cons (MsgItem.getStringPtrCount_pos _)] at hpassed
  exact
    { placed :=
        { srcPos := Nat.one_pos
          srcPart := MsgItem.getStringPtrCount_pos _
          srcFits := hnext.2.2
          dstPos := h.placed.dstPos, dstPart := h.placed.dstPart, dstFits := h.placed.dstFits }
      srcItem := rfl
      dstItem := h.dstItem
      msgtag := h.msgtag
      totalMrs := h.totalMrs
      accept := h.accept
      totalLen := h.totalLen
      passed := hpassed
      lastItem := (lastItem_of hnext).symm.trans h.lastItem
      behindBuffer := h.behindBuffer }

/-- The next part of the buffer item. -/
theorem nextBufferPart (h : CopyAt mr br x₀ P x c) (hfull : c.dstLen = 0)
    (hpart : c.dstPtridx < c.dstItem.getStringPtrCount) :
    CopyAt mr br x₀ P x
      { c with
        dstPtridx := c.dstPtridx + 1, dstAddr := br (x.brIdx + c.dstPtridx + 1)
        dstLen := BitVec.ofNat 64 c.dstItem.getStringLength } := by
  have hpassed := h.passed
  have hitem := hpart
  rw [h.dstItem] at hitem
  rw [bufferRest, hfull, bytes_empty, fragments_cons hitem] at hpassed
  exact
    { placed :=
        { srcPos := h.placed.srcPos, srcPart := h.placed.srcPart, srcFits := h.placed.srcFits
          dstPos := Nat.succ_pos _, dstPart := hpart, dstFits := h.placed.dstFits }
      srcItem := h.srcItem
      dstItem := h.dstItem
      msgtag := h.msgtag
      totalMrs := h.totalMrs
      accept := h.accept
      totalLen := h.totalLen
      passed := by
        rw [bufferRest, h.dstItem]
        exact hpassed
      lastItem := h.lastItem
      behindBuffer := h.behindBuffer }

theorem lastBufferPart (h : CopyAt mr br x₀ P x c)
    (hpart : ¬c.dstPtridx < c.dstItem.getStringPtrCount) :
    x.brIdx + c.dstPtridx + 1 = behindItem br x.brIdx := by
  have hle := h.placed.dstPart
  rw [h.dstItem] at hpart hle
  rw [behindItem]
  omega

theorem bufferContinued_iff (h : CopyAt mr br x₀ P x c) : Continued br ipcNumBr x.brIdx ↔
    c.dstItem.isStringCompound = true ∧ behindItem br x.brIdx + 1 ≤ ipcNumBr ∧
      behindItem br x.brIdx + (MsgItem.mk (br (behindItem br x.brIdx))).getStringPtrCount ≤
        ipcNumBr := by
  rw [Continued, h.dstItem]

/-- All parts of the buffer item are full. -/
theorem bufferRest_eq (h : CopyAt mr br x₀ P x c) (hfull : c.dstLen = 0)
    (hpart : ¬c.dstPtridx < c.dstItem.getStringPtrCount) :
    bufferRest br x c = bytes (continuation br ipcNumBr x.brIdx) := by
  have hle := Nat.le_of_not_lt hpart
  rw [h.dstItem] at hle
  rw [bufferRest, hfull, bytes_empty, fragments_nil hle, List.nil_append]

/-- The item that continues the buffer. -/
theorem nextBufferItem (h : CopyAt mr br x₀ P x c) (hfull : c.dstLen = 0)
    (hpart : ¬c.dstPtridx < c.dstItem.getStringPtrCount)
    (hnext : Continued br ipcNumBr x.brIdx) :
    CopyAt mr br x₀ P { x with brIdx := behindItem br x.brIdx }
      { c with
        dstItem := ⟨br (behindItem br x.brIdx)⟩, dstPtridx := 1
        dstAddr := br (behindItem br x.brIdx + 1)
        dstLen := BitVec.ofNat 64 (MsgItem.mk (br (behindItem br x.brIdx))).getStringLength } := by
  have hpassed := h.passed
  rw [h.bufferRest_eq hfull hpart, continuation_of hnext,
    fragments_cons (MsgItem.getStringPtrCount_pos _)] at hpassed
  exact
    { placed :=
        { srcPos := h.placed.srcPos, srcPart := h.placed.srcPart, srcFits := h.placed.srcFits
          dstPos := Nat.one_pos
          dstPart := MsgItem.getStringPtrCount_pos _
          dstFits := hnext.2.2 }
      srcItem := h.srcItem
      dstItem := rfl
      msgtag := h.msgtag
      totalMrs := h.totalMrs
      accept := h.accept
      totalLen := h.totalLen
      passed := hpassed
      lastItem := h.lastItem
      behindBuffer := (behindBuffer_of hnext.1 hnext.2.1).symm.trans h.behindBuffer }

end CopyAt

/-! ## Iterations of the copy loop -/

/-- The transfer has failed with an overflow behind the pairs. -/
structure Overflowed (src dst : TcbPtr) (x₀ : Xfer) (P : List (Word × Word)) (tag : MsgTag)
    (t : KState) : Prop where
  tag : tag = x₀.msgtag.setError
  sender : (t.utcbOf src).errorCode =
    ipcSndError (errIpcMsgOverflow (x₀.totalLen + BitVec.ofNat 64 P.length))
  receiver : (t.tcb src).utcb ≠ (t.tcb dst).utcb → (t.utcbOf dst).errorCode =
    ipcRcvError (errIpcMsgOverflow (x₀.totalLen + BitVec.ofNat 64 P.length))

/-- The place behind a string item and its buffer. -/
def Xfer.behind (mr br : Nat → Word) (x : Xfer) : Xfer :=
  { x with
    srcIdx := behindItem mr (lastItem mr x.totalMrs x.srcIdx)
    brIdx := behindBuffer br x.brIdx
    totalLen := x.totalLen + BitVec.ofNat 64 (stringBytes mr x.totalMrs x.srcIdx).length
    acceptStrings := (MsgItem.mk (br x.brIdx)).moreStrings && behindBuffer br x.brIdx < ipcNumBr
    point := .items }

/-- The pairs of bytes that belong to the string item and its buffer. -/
def Xfer.stringPairs (mr br : Nat → Word) (x : Xfer) : List (Word × Word) :=
  (stringBytes mr x.totalMrs x.srcIdx).zip (stringBytes br ipcNumBr x.brIdx)

/-- The whole string is in the buffer, and the item loop goes on behind both. -/
structure Copied (mr br : Nat → Word) (x₀ : Xfer) (P : List (Word × Word)) (y : Xfer) : Prop where
  eq_behind : y = x₀.behind mr br
  eq_pairs : P = x₀.stringPairs mr br
  length_eq : P.length = (stringBytes mr x₀.totalMrs x₀.srcIdx).length

/-- The buffer is full, or the string is cut off. -/
def TooLong (mr br : Nat → Word) (x : Xfer) : Prop :=
  (stringBytes br ipcNumBr x.brIdx).length ≤ (stringBytes mr x.totalMrs x.srcIdx).length ∨
    CutOff mr x.totalMrs x.srcIdx

/-- What an iteration of the copy loop leads to. -/
inductive Arrives (src dst : TcbPtr) (mr br : Nat → Word) (x₀ : Xfer) (P : List (Word × Word))
    (clipped : Prop) : XferResult → KState → Prop
  | copying {y : Xfer} {d : StringCopy} {t : KState} : y.point = .string d →
    CopyAt mr br x₀ P y d → Arrives src dst mr br x₀ P clipped (.more y) t
  | copied {y : Xfer} {t : KState} : Copied mr br x₀ P y →
    Arrives src dst mr br x₀ P clipped (.more y) t
  | overflow {tag : MsgTag} {t : KState} : Overflowed src dst x₀ P tag t →
    clipped ∨ P = x₀.stringPairs mr br ∧ TooLong mr br x₀ →
    Arrives src dst mr br x₀ P clipped (.done tag) t

theorem wp_messageOverflow_of {Q : XferResult → KState → Prop}
    (hlen : x.totalLen = x₀.totalLen + BitVec.ofNat 64 P.length) (htag : x.msgtag = x₀.msgtag)
    (h : ∀ tag t, Overflowed src dst x₀ P tag t → Q (.done tag) t) :
    wp (fun _ => True) (messageOverflow src dst x) Q s := by
  rw [messageOverflow]
  refine wp_bind_of_forall fun _ t => ?_
  rw [setErrorCode, setErrorCode, wp_bind, wp_modUtcb]
  refine ⟨fun _ => trivial, fun v hv => ?_⟩
  rw [wp_bind, wp_modUtcb]
  refine ⟨fun _ => trivial, fun u hu => h _ _ ?_⟩
  have hu' : (t.tcb src).utcb = some u := hu
  rw [hlen, htag]
  exact
    { tag := rfl
      sender := by simp only [KState.utcbOf, hu', Function.update_self]
      receiver := fun hne => by
        have huv : v ≠ u := by
          rintro rfl
          exact hne (hu'.trans hv.symm)
        simp only [KState.utcbOf, hv, Function.update_of_ne huv, Function.update_self] }

theorem wp_messageOverflow {clipped : Prop}
    (h : clipped ∨ P = x₀.stringPairs mr br ∧ TooLong mr br x₀)
    (hlen : x.totalLen = x₀.totalLen + BitVec.ofNat 64 P.length) (htag : x.msgtag = x₀.msgtag) :
    wp (fun _ => True) (messageOverflow src dst x) (Arrives src dst mr br x₀ P clipped) s :=
  wp_messageOverflow_of hlen htag fun _ _ ht => .overflow ht h

theorem wp_getMr_of {p : TcbPtr} {i : Nat} {Q : Word → KState → Prop} (h : Q (s.reg p i) s) :
    wp (fun _ => True) (Kernel.getMr p i) Q s := by
  rw [Kernel.getMr, wp_bind]
  exact wp_readUtcb_of h

theorem wp_getBr_of {p : TcbPtr} {i : Nat} {Q : Word → KState → Prop} (h : Q (s.buffer p i) s) :
    wp (fun _ => True) (Kernel.getBr p i) Q s := by
  rw [Kernel.getBr, wp_bind]
  exact wp_readUtcb_of h

namespace CopyAt

/-- The string buffer is full. -/
theorem full (h : CopyAt mr br x₀ P x c) (hrest : bufferRest br x c = []) :
    P = x₀.stringPairs mr br ∧ TooLong mr br x₀ := by
  have hpassed := h.passed
  rw [hrest] at hpassed
  exact ⟨hpassed.eq_zip (.inr rfl), .inl hpassed.length_le⟩

/-- The send string has more data. -/
theorem wp_nextBuffer (h : CopyAt mr br x₀ P x c) (hbr : s.buffer dst = br) {clipped : Prop} :
    wp (fun _ => True) (nextBuffer src dst x c) (Arrives src dst mr br x₀ P clipped) s := by
  have hover (hrest : bufferRest br x c = []) : wp (fun _ => True) (messageOverflow src dst x)
      (Arrives src dst mr br x₀ P clipped) s :=
    wp_messageOverflow (.inr (h.full hrest)) h.totalLen h.msgtag
  have hend (hfull : c.dstLen = 0) (hpart : ¬c.dstPtridx < c.dstItem.getStringPtrCount)
      (hnext : ¬Continued br ipcNumBr x.brIdx) : bufferRest br x c = [] := by
    rw [h.bufferRest_eq hfull hpart, continuation_of_not hnext, bytes_nil]
  rw [nextBuffer, wp_ite]
  split
  · exact .copying rfl h.moved
  · rename_i hfull
    have hfull : c.dstLen = 0 := not_not.1 hfull
    rw [wp_ite]
    split
    · rename_i hpart
      rw [wp_bind]
      refine wp_getBr_of (.copying rfl ?_)
      rw [hbr]
      exact (h.nextBufferPart hfull hpart).moved
    · rename_i hpart
      have hiff := h.bufferContinued_iff
      rw [wp_ite, h.lastBufferPart hpart]
      split
      · rename_i hcomp
        dsimp only
        rw [wp_ite]
        split
        · rename_i hlt
          refine hover (hend hfull hpart fun hnext => ?_)
          exact Nat.not_le_of_lt hlt hnext.2.1
        · rename_i hlt
          rw [wp_bind]
          refine wp_getBr_of ?_
          rw [wp_bind]
          refine wp_getBr_of ?_
          rw [wp_ite, hbr]
          split
          · rename_i hlt
            refine hover (hend hfull hpart fun hnext => ?_)
            exact Nat.not_le_of_lt hlt hnext.2.2
          · rename_i hfits
            refine .copying rfl ?_
            refine (h.nextBufferItem hfull hpart (hiff.2 ⟨hcomp, ?_, ?_⟩)).moved
            · exact Nat.le_of_not_lt hlt
            · exact Nat.le_of_not_lt hfits
      · rename_i hcomp
        exact hover (hend hfull hpart fun hnext => hcomp (hiff.1 hnext).1)

end CopyAt

/-- A write to a TCB that leaves the UTCB pointer leaves the registers. -/
theorem utcbOf_update {p q : TcbPtr} {b : Tcb} (h : b.utcb = (s.tcb p).utcb) :
    KState.utcbOf { s with tcb := Function.update s.tcb p b } q = s.utcbOf q := by
  rcases eq_or_ne q p with rfl | hne
  · simp only [KState.utcbOf, Function.update_self, h]
  · simp only [KState.utcbOf, Function.update_of_ne hne]

theorem wp_skipBuffer {n i : Nat} (hbr : s.buffer dst = br) :
    wp (fun _ => True) (skipBuffer dst n i ⟨br i⟩)
      (fun r t => r = (behindBuffer br i, decide (behindBuffer br i < ipcNumBr)) ∧ t = s) s := by
  induction n generalizing i with
  | zero => trivial
  | succ n ih =>
    have hidx : i + (MsgItem.mk (br i)).getStringPtrCount + 1 = behindItem br i := rfl
    rw [skipBuffer, hidx, wp_ite]
    split
    · rename_i hover
      have hover := Nat.not_lt_of_le hover
      rw [behindBuffer_of_not fun h => hover h.2, decide_eq_false hover]
      exact ⟨rfl, rfl⟩
    · rename_i hlt
      have hlt := Nat.lt_of_not_le hlt
      rw [wp_ite]
      split
      · rename_i hcomp
        rw [wp_bind]
        refine wp_getBr_of ?_
        rw [hbr, behindBuffer_of hcomp hlt]
        exact ih
      · rename_i hcomp
        rw [behindBuffer_of_not fun h => hcomp h.1, decide_eq_true hlt]
        exact ⟨rfl, rfl⟩

namespace CopyAt

/-- The string ends at the place. -/
theorem copied (h : CopyAt mr br x₀ P x c) (hdone : c.srcLen = 0)
    (hpart : ¬c.srcPtridx < c.srcItem.getStringPtrCount)
    (hcomp : ¬c.srcItem.isStringCompound = true) :
    Copied mr br x₀ P
      { x with
        srcIdx := behindItem mr x.srcIdx, brIdx := L4Thread.behindBuffer br x.brIdx
        point := .items
        acceptStrings :=
          x.acceptStrings && decide (L4Thread.behindBuffer br x.brIdx < ipcNumBr) } := by
  have hnext : ¬Continued mr x.totalMrs x.srcIdx := fun hnext => hcomp (h.continued_iff.1 hnext).1
  have hpassed := h.passed
  rw [h.sendRest_eq hdone hpart, continuation_of_not hnext, bytes_nil] at hpassed
  have hlen := hpassed.length_eq
  have hlast := h.lastItem
  rw [lastItem_of_not hnext] at hlast
  refine { eq_behind := ?_, eq_pairs := hpassed.eq_zip (.inl rfl), length_eq := hlen }
  rw [h.behindBuffer, hlast, h.accept, h.msgtag, h.totalMrs, h.totalLen, hlen, Xfer.behind]

/-- The string is cut off at the place. -/
theorem cutOff (h : CopyAt mr br x₀ P x c) (hdone : c.srcLen = 0)
    (hpart : ¬c.srcPtridx < c.srcItem.getStringPtrCount)
    (hcomp : c.srcItem.isStringCompound = true) (hnext : ¬Continued mr x.totalMrs x.srcIdx) :
    P = x₀.stringPairs mr br ∧ TooLong mr br x₀ := by
  have hpassed := h.passed
  rw [h.sendRest_eq hdone hpart, continuation_of_not hnext, bytes_nil] at hpassed
  have hlast := h.lastItem
  rw [lastItem_of_not hnext] at hlast
  refine ⟨hpassed.eq_zip (.inl rfl), .inr ?_⟩
  rw [CutOff, ← hlast, ← h.srcItem]
  exact hcomp

/-- The copy loop behind the `memcpy`. -/
theorem wp_finishCopy (h : CopyAt mr br x₀ P x c) (hmr : s.reg src = mr) (hbr : s.buffer dst = br)
    (hlen : len ≤ c.copyLength) :
    wp (fun _ => True) (finishCopy src dst x c c.copyLength len)
      (Arrives src dst mr br x₀ (P ++ c.copied len) (len < c.copyLength)) s := by
  have hbehind := h.advance (BitVec.le_trans hlen c.copyLength_le.1)
    (BitVec.le_trans hlen c.copyLength_le.2)
  rw [finishCopy, wp_bind, wp_modTcb]
  generalize hs1 : Function.update s.tcb src _ = tcb
  have hutcb (q : TcbPtr) : KState.utcbOf { s with tcb } q = s.utcbOf q := by
    rw [← hs1]
    exact utcbOf_update rfl
  have hbr1 : KState.buffer { s with tcb } dst = br := by
    rw [← hbr]
    funext i
    rw [KState.buffer, KState.buffer, hutcb]
  have hmr1 : KState.reg { s with tcb } src = mr := by
    rw [← hmr]
    funext i
    rw [KState.reg, KState.reg, hutcb]
  rw [wp_ite]
  split
  · rename_i hcut
    exact wp_messageOverflow (.inl hcut) hbehind.totalLen hbehind.msgtag
  · rw [wp_ite]
    split
    · exact hbehind.wp_nextBuffer hbr1
    · rename_i hdone
      have hdone : c.srcLen - len = 0 := not_not.1 hdone
      rw [wp_ite]
      split
      · rename_i hpart
        rw [wp_bind]
        refine wp_getMr_of ?_
        rw [hmr1]
        exact (hbehind.nextPart hdone hpart).wp_nextBuffer hbr1
      · rename_i hpart
        have hidx : x.srcIdx + c.srcPtridx + 1 = behindItem mr x.srcIdx := h.lastPart hpart
        have hiff := h.continued_iff
        rw [wp_ite, hidx]
        split
        · rename_i hcomp
          have hcut (hnext : ¬Continued mr x.totalMrs x.srcIdx) :
              P ++ c.copied len = x₀.stringPairs mr br ∧ TooLong mr br x₀ :=
            hbehind.cutOff hdone hpart hcomp hnext
          dsimp only
          rw [wp_ite]
          split
          · rename_i hlt
            refine wp_messageOverflow (.inr (hcut fun hnext => ?_)) hbehind.totalLen hbehind.msgtag
            exact Nat.not_le_of_lt hlt hnext.2.1
          · rename_i hlt
            rw [wp_bind]
            refine wp_getMr_of ?_
            rw [wp_bind]
            refine wp_getMr_of ?_
            rw [wp_ite, hmr1]
            split
            · rename_i hlt
              refine wp_messageOverflow (.inr (hcut fun hnext => ?_)) hbehind.totalLen
                hbehind.msgtag
              exact Nat.not_le_of_lt hlt hnext.2.2
            · rename_i hfits
              have hnext := hiff.2 ⟨hcomp, Nat.le_of_not_lt hlt, Nat.le_of_not_lt hfits⟩
              exact (hbehind.nextSend hdone hpart hnext).wp_nextBuffer hbr1
        · rename_i hcomp
          have hitem : c.dstItem = ⟨br x.brIdx⟩ := h.dstItem
          rw [wp_bind, hitem]
          refine wp_mono (wp_skipBuffer hbr1) fun r t hr => ?_
          obtain ⟨rfl, rfl⟩ := hr
          exact .copied (hbehind.copied hdone hpart hcomp)

end CopyAt

/-! ## Clipping -/

/-- A range below the end of the user area is not clipped. -/
theorem getCopyLimit_of_user {addr limit : Word}
    (h : ∀ a ∈ segment addr limit.toNat, a < userAreaEnd) : ¬getCopyLimit addr limit < limit := by
  have hend : userAreaEnd.toNat = 2 ^ 40 - 1 := by decide
  rw [BitVec.lt_def]
  rcases Nat.eq_zero_or_pos limit.toNat with hzero | hpos
  · rw [hzero]
    exact Nat.not_lt_zero _
  · have hfirst : addr < userAreaEnd := h addr (mem_segment.2 ⟨0, hpos, BitVec.add_zero addr⟩)
    rw [BitVec.lt_def, hend] at hfirst
    have hroom : addr.toNat + limit.toNat ≤ 2 ^ 40 - 1 := by
      by_contra hover
      have hlt := h _ (mem_segment.2 ⟨2 ^ 40 - 1 - addr.toNat, by omega, rfl⟩)
      rw [BitVec.lt_def, hend, BitVec.toNat_add, BitVec.toNat_ofNat] at hlt
      omega
    rw [toNat_getCopyLimit_user (by omega)]
    split
    · omega
    · exact Nat.lt_irrefl _

/-- The length that `ipc_copy` returns. -/
def StringCopy.clippedLength (c : StringCopy) : Word :=
  let srcLen := getCopyLimit c.srcAddr c.copyLength
  let dstLen := getCopyLimit c.dstAddr c.copyLength
  let len := if srcLen < c.copyLength then srcLen else c.copyLength
  if dstLen < len then dstLen else len

theorem StringCopy.clippedLength_le (c : StringCopy) : c.clippedLength ≤ c.copyLength :=
  BitVec.le_trans clipped_le clipped_le

theorem StringCopy.clippedLength_eq (c : StringCopy)
    (hsrc : ∀ a ∈ segment c.srcAddr c.copyLength.toNat, a < userAreaEnd)
    (hdst : ∀ a ∈ segment c.dstAddr c.copyLength.toNat, a < userAreaEnd) :
    c.clippedLength = c.copyLength := by
  rw [clippedLength, if_neg (getCopyLimit_of_user hsrc), if_neg (getCopyLimit_of_user hdst)]

theorem startCopy_clips :
    Returns (fun r => r = .more { x with point := .copying c c.copyLength c.clippedLength })
      (startCopy src dst x c) := by
  rw [startCopy]
  refine .bind fun _ => ?_
  dsimp only
  refine .bind fun _ => .bind fun _ => ?_
  split
  · intro s r t h
    cases h
  · exact .bind fun _ => .pure rfl

/-- Both strings are below the end of the user area. -/
def Xfer.InUserArea (mr br : Nat → Word) (x : Xfer) : Prop :=
  (∀ a ∈ stringBytes mr x.totalMrs x.srcIdx, a < userAreaEnd) ∧
    ∀ a ∈ stringBytes br ipcNumBr x.brIdx, a < userAreaEnd

namespace CopyAt

/-- In the user area nothing is clipped. -/
theorem clippedLength_eq (h : CopyAt mr br x₀ P x c) (huser : x₀.InUserArea mr br) :
    c.clippedLength = c.copyLength := by
  obtain ⟨as, bs, -, -, hsend, hbuffer⟩ := h.passed
  obtain ⟨hsrc, hdst⟩ := c.copyLength_le
  refine c.clippedLength_eq (fun a ha => huser.1 a ?_) fun a ha => huser.2 a ?_
  · rw [hsend, sendRest, bytes_cut hsrc]
    exact List.mem_append_right _ (List.mem_append_left _ ha)
  · rw [hbuffer, bufferRest, bytes_cut hdst]
    exact List.mem_append_right _ (List.mem_append_left _ ha)

end CopyAt

/-! ## The start of a string -/

/-- The copy of a message register changes neither the message registers of the sender nor the
buffer registers. -/
theorem wp_copyMr_of {i : Nat} {Q : Unit → KState → Prop}
    (h : ∀ t, t.reg src = s.reg src → t.buffer dst = s.buffer dst → Q () t) :
    wp (fun _ => True) (Kernel.copyMr dst src i) Q s := by
  rw [Kernel.copyMr, wp_bind, Kernel.getMr, wp_bind, wp_readUtcb]
  refine ⟨fun _ => trivial, fun u hu => ?_⟩
  rw [wp_pure, setMr, wp_modUtcb]
  refine ⟨fun _ => trivial, fun v hv => h _ ?_ ?_⟩
  · funext j
    rcases eq_or_ne u v with rfl | hne
    · simp only [KState.reg, KState.utcbOf, hu, Function.update_self, Function.update_eq_self]
    · simp only [KState.reg, KState.utcbOf, hu, Function.update_of_ne hne]
  · funext j
    simp only [KState.buffer, KState.utcbOf, hv, Function.update_self]

/-- The item loop is at a string, and the receiver has a buffer for it. -/
structure Accepted (mr br : Nat → Word) (x : Xfer) : Prop where
  more : x.srcIdx < x.totalMrs
  isString : (MsgItem.mk (mr x.srcIdx)).isStringItem = true
  notMap : ¬((MsgItem.mk (mr x.srcIdx)).isMapItem = true ∨
    (MsgItem.mk (mr x.srcIdx)).isGrantItem = true)
  accept : x.acceptStrings = true
  fits : x.brIdx + (MsgItem.mk (br x.brIdx)).getStringPtrCount ≤ ipcNumBr
  buffer : (MsgItem.mk (br x.brIdx)).isStringItem = true

/-- If the item loop has gone to the copy loop, it stands at its first place. -/
def Entered (mr br : Nat → Word) (x₀ : Xfer) (r : XferResult) (_ : KState) : Prop :=
  ∀ y, r = .more y → y.point ≠ .items →
    Accepted mr br x₀ ∧ ∃ c, y.point = .string c ∧ CopyAt mr br x₀ [] y c

theorem entered_messageOverflow :
    wp (fun _ => True) (messageOverflow src dst x) (Entered mr br x₀) s := by
  have hlen : x.totalLen = x.totalLen + BitVec.ofNat 64 ([] : List (Word × Word)).length :=
    (BitVec.add_zero _).symm
  refine wp_messageOverflow_of hlen rfl fun _ _ _ _ hy => ?_
  cases hy

theorem entered_stringItem (hmr : s.reg src = mr) (hbr : s.buffer dst = br)
    (hmore : x₀.srcIdx < x₀.totalMrs) (hitem : (MsgItem.mk (mr x₀.srcIdx)).isStringItem = true)
    (hmap : ¬((MsgItem.mk (mr x₀.srcIdx)).isMapItem = true ∨
      (MsgItem.mk (mr x₀.srcIdx)).isGrantItem = true)) :
    wp (fun _ => True) (stringItem src dst x₀ ⟨mr x₀.srcIdx⟩) (Entered mr br x₀) s := by
  rw [stringItem, wp_bind]
  refine wp_copyMr_of fun t hmr1 hbr1 => ?_
  rw [hmr] at hmr1
  rw [hbr] at hbr1
  rw [wp_ite]
  split
  · exact entered_messageOverflow
  · rename_i hsrc
    obtain ⟨haccept, hsrc⟩ := not_or.1 hsrc
    rw [Bool.not_eq_true', Bool.not_eq_false] at haccept
    rw [wp_bind]
    refine wp_getMr_of ?_
    rw [wp_bind]
    refine wp_getBr_of ?_
    rw [wp_ite, hmr1, hbr1]
    split
    · exact entered_messageOverflow
    · rename_i hdst
      rw [wp_bind]
      refine wp_getBr_of ?_
      rw [wp_ite, hbr1]
      split
      · exact entered_messageOverflow
      · rename_i hbuffer
        rw [Bool.not_eq_true', Bool.not_eq_false] at hbuffer
        intro y hy _
        cases hy
        refine ⟨⟨hmore, hitem, hmap, haccept, Nat.le_of_not_lt hdst, hbuffer⟩, _, rfl, ?_⟩
        exact
          { placed :=
              { srcPos := Nat.one_pos
                srcPart := MsgItem.getStringPtrCount_pos _
                srcFits := Nat.le_of_not_lt hsrc
                dstPos := Nat.one_pos
                dstPart := MsgItem.getStringPtrCount_pos _
                dstFits := Nat.le_of_not_lt hdst }
            srcItem := rfl
            dstItem := rfl
            msgtag := rfl
            totalMrs := rfl
            accept := rfl
            totalLen := (BitVec.add_zero _).symm
            passed := by
              rw [stringBytes, stringBytes, fragments_cons (MsgItem.getStringPtrCount_pos _),
                fragments_cons (MsgItem.getStringPtrCount_pos _)]
              exact .refl
            lastItem := rfl
            behindBuffer := rfl }

/-- A string item that is accepted leads to the first place of the copy loop. -/
theorem copyAt_of_transferStep (hp : x₀.point = .items) (hmr : s.reg src = mr)
    (hbr : s.buffer dst = br) (hstep : transferStep src dst x₀ s = .ok (.more x, t))
    (hx : x.point ≠ .items) :
    Accepted mr br x₀ ∧ ∃ c, x.point = .string c ∧ CopyAt mr br x₀ [] x c := by
  have hwp : wp (fun _ => True) (transferItem src dst x₀) (Entered mr br x₀) s := by
    rw [transferItem, wp_ite]
    split
    · rename_i hmore
      rw [wp_bind]
      refine wp_getMr_of ?_
      rw [wp_ite, hmr]
      split
      · rw [wp_bind]
        refine wp_getBr_of ?_
        rw [wp_ite]
        split
        · exact entered_messageOverflow
        · refine wp_bind_of_forall fun _ _ => wp_bind_of_forall fun _ _ y hy hne => ?_
          cases hy
          exact absurd hp hne
      · rename_i hmap
        rw [wp_ite]
        split
        · exact entered_stringItem hmr hbr hmore ‹_› hmap
        · exact entered_messageOverflow
    · rw [transferDone]
      refine wp_bind_of_forall fun _ _ => wp_bind_of_forall fun _ _ y hy => ?_
      cases hy
  rw [transferStep, hp] at hstep
  exact wp_ok hwp hstep x rfl hx

/-! ## Runs of the copy loop -/

/-- What `ipc_copy` has just had `memcpy` copy. -/
def Xfer.copied (x : Xfer) : List (Word × Word) :=
  match x.point with
  | .copying c _ len => c.copied len
  | _ => []

/-- A run of the copy loop, with the pairs of a source and a destination byte in the order of the
copies, the result of the last iteration and the state it leaves. Each iteration may start in
another state with the same message registers of the sender and buffer registers of the receiver. -/
inductive StringRun (src dst : TcbPtr) (mr br : Nat → Word) :
    Xfer → List (Word × Word) → XferResult → KState → Prop
  | next {x y : Xfer} {s t u : KState} {P : List (Word × Word)} {r : XferResult} :
    x.point ≠ .items → s.reg src = mr → s.buffer dst = br →
    transferStep src dst x s = .ok (.more y, t) → StringRun src dst mr br y P r u →
    StringRun src dst mr br x (y.copied ++ P) r u
  | overflow {x : Xfer} {s t : KState} {tag : MsgTag} : x.point ≠ .items →
    s.reg src = mr → s.buffer dst = br → transferStep src dst x s = .ok (.done tag, t) →
    StringRun src dst mr br x [] (.done tag) t
  | items {x : Xfer} {t : KState} : x.point = .items → StringRun src dst mr br x [] (.more x) t

/-- What has been copied for a string, when the copy loop is left. -/
inductive Outcome (src dst : TcbPtr) (mr br : Nat → Word) (x₀ : Xfer) (P : List (Word × Word)) :
    XferResult → KState → Prop
  | copied {y : Xfer} {t : KState} : Copied mr br x₀ P y → Outcome src dst mr br x₀ P (.more y) t
  | tooLong {tag : MsgTag} {t : KState} : Overflowed src dst x₀ P tag t →
    P = x₀.stringPairs mr br → TooLong mr br x₀ → Outcome src dst mr br x₀ P (.done tag) t
  | clipped {tag : MsgTag} {t : KState} : Overflowed src dst x₀ P tag t →
    P <+: x₀.stringPairs mr br → ¬x₀.InUserArea mr br → Outcome src dst mr br x₀ P (.done tag) t

/-- The pairs have been copied at a place of the copy loop. -/
def InString (mr br : Nat → Word) (x₀ : Xfer) (P : List (Word × Word)) (x : Xfer) : Prop :=
  match x.point with
  | .items => Copied mr br x₀ P x
  | .string c => CopyAt mr br x₀ P x c
  | .copying c copyLength len => copyLength = c.copyLength ∧ len = c.clippedLength ∧
      ∃ P', P = P' ++ c.copied len ∧ CopyAt mr br x₀ P' x c

/-- An iteration that copies nothing further. -/
theorem Arrives.inString {clipped : Prop} {r : XferResult}
    (h : Arrives src dst mr br x₀ P clipped r t)
    (hclip : clipped → P <+: x₀.stringPairs mr br ∧ ¬x₀.InUserArea mr br) :
    (∃ y, r = .more y ∧ InString mr br x₀ (P ++ y.copied) y) ∨
      ∃ tag, r = .done tag ∧ Outcome src dst mr br x₀ P r t := by
  cases h with
  | copying hy hd =>
    refine .inl ⟨_, rfl, ?_⟩
    rw [InString, Xfer.copied, hy, List.append_nil]
    exact hd
  | copied hy =>
    have hpoint := congrArg Xfer.point hy.eq_behind
    refine .inl ⟨_, rfl, ?_⟩
    rw [InString, Xfer.copied, hpoint, Xfer.behind, List.append_nil]
    exact hy
  | overflow htold hwhy =>
    refine .inr ⟨_, rfl, ?_⟩
    rcases hwhy with hcut | ⟨hpairs, hlong⟩
    · exact .clipped htold (hclip hcut).1 (hclip hcut).2
    · exact .tooLong htold hpairs hlong

/-- An iteration of the copy loop. -/
theorem InString.step (h : InString mr br x₀ P x) (hx : x.point ≠ .items) (hmr : s.reg src = mr)
    (hbr : s.buffer dst = br) : wp (fun _ => True) (transferStep src dst x) (fun r t =>
      (∃ y, r = .more y ∧ InString mr br x₀ (P ++ y.copied) y) ∨
        ∃ tag, r = .done tag ∧ Outcome src dst mr br x₀ P r t) s := by
  rw [transferStep]
  cases hp : x.point with
  | items => exact absurd hp hx
  | string c =>
    rw [InString, hp] at h
    refine startCopy_clips.wp fun r t hr => .inl ⟨_, hr, ?_⟩
    exact ⟨rfl, rfl, P, rfl, h.moved⟩
  | copying c copyLength len =>
    rw [InString, hp] at h
    obtain ⟨rfl, rfl, P', rfl, hat⟩ := h
    have hle := c.clippedLength_le
    have hbehind := hat.advance (BitVec.le_trans hle c.copyLength_le.1)
      (BitVec.le_trans hle c.copyLength_le.2)
    refine wp_mono (hat.wp_finishCopy hmr hbr hle) fun r t hr => hr.inString fun hcut => ?_
    refine ⟨hbehind.passed.isPrefix, fun huser => ?_⟩
    rw [hat.clippedLength_eq huser] at hcut
    exact BitVec.lt_irrefl _ hcut

theorem StringRun.outcome_of_inString {Q : List (Word × Word)} {r : XferResult} {u : KState}
    (hrun : StringRun src dst mr br x Q r u) (h : InString mr br x₀ P x) :
    Outcome src dst mr br x₀ (P ++ Q) r u := by
  induction hrun generalizing P with
  | next hx hmr hbr hstep _ ih =>
    rcases wp_ok (h.step hx hmr hbr) hstep with ⟨y, hy, hin⟩ | ⟨tag, hdone, -⟩
    · cases hy
      rw [← List.append_assoc]
      exact ih hin
    · cases hdone
  | overflow hx hmr hbr hstep =>
    rw [List.append_nil]
    rcases wp_ok (h.step hx hmr hbr) hstep with ⟨y, hy, -⟩ | ⟨tag, -, hout⟩
    · cases hy
    · exact hout
  | items hp =>
    rw [InString, hp] at h
    rw [List.append_nil]
    exact .copied h

/-- The copy loop copies the string to the buffer, as far as both go and lie in the user area. If
all of it is in the buffer, the item loop goes on behind the string and the buffer; otherwise both
threads are told how much of the message has been copied. -/
theorem StringRun.copies_string (hp : x₀.point = .items) (hmr : s.reg src = mr)
    (hbr : s.buffer dst = br) (hstep : transferStep src dst x₀ s = .ok (.more x, t))
    (hx : x.point ≠ .items) {r : XferResult} {u : KState}
    (hrun : StringRun src dst mr br x P r u) : Outcome src dst mr br x₀ P r u := by
  obtain ⟨-, c, hc, hat⟩ := copyAt_of_transferStep hp hmr hbr hstep hx
  refine hrun.outcome_of_inString (P := []) ?_
  rw [InString, hc]
  exact hat

/-- The place that an iteration leads to. -/
def Kernel.XferResult.place : XferResult → Option Xfer
  | .more x => some x
  | .done _ => none

/-- The run of the copy loop whose iterations all start in the same state, up to the item loop. -/
def copyRun (src dst : TcbPtr) (s : KState) : Nat → Xfer → Option (List (Word × Word) × Xfer)
  | 0, _ => none
  | n + 1, x =>
    if x.point = .items then some ([], x)
    else
      match transferStep src dst x s with
      | .ok (.more y, _) => (copyRun src dst s n y).map fun r => (y.copied ++ r.1, r.2)
      | _ => none

theorem stringRun_of_copyRun {n : Nat} (h : copyRun src dst s n x = some (P, y)) :
    StringRun src dst (s.reg src) (s.buffer dst) x P (.more y) s := by
  induction n generalizing x P with
  | zero => cases h
  | succ n ih =>
    rw [copyRun] at h
    split at h
    · cases h
      exact .items ‹_›
    · rename_i hx
      split at h
      · rename_i z t hstep
        obtain ⟨⟨Q, y'⟩, hrun, hP⟩ := Option.map_eq_some_iff.1 h
        cases hP
        exact .next hx rfl rfl hstep (ih hrun)
      · cases h

/-- Two threads in the same space: a string of three bytes in the message registers of the first,
and a buffer of two parts of two bytes in the buffer registers of the second. -/
def KState.threeBytes : KState :=
  { KState.fullMessage with
    utcb := fun _ =>
      { Utcb.zero with
        mr := fun i => if i = 1 then 3 <<< 10 else if i = 2 then 0x1000 else 0
        br := fun i =>
          if i = 0 then 1 else if i = 1 then 2 <<< 10 ||| 1 <<< 4
          else if i = 2 then 0x2000 else if i = 3 then 0x3000 else 0 } }

/-- The start of a message with one string. -/
def Xfer.oneString : Xfer := ⟨.tag 2 0 0, 1, 2, 0, true, 1, .items⟩

theorem exists_stringRun : ∃ (x y : Xfer) (t : KState) (P : List (Word × Word)),
    transferStep .idle (getTcb sigma0Tid) .oneString .threeBytes = .ok (.more x, t) ∧
      x.point ≠ .items ∧ P = [(0x1000, 0x2000), (0x1001, 0x2001), (0x1002, 0x3000)] ∧
      StringRun .idle (getTcb sigma0Tid) (KState.threeBytes.reg .idle)
        (KState.threeBytes.buffer (getTcb sigma0Tid)) x P (.more y) .threeBytes ∧
      returnsWith (transferStep .idle (getTcb sigma0Tid) y) (fun r _ => r.place.isNone)
        .threeBytes = true := by
  have hsteps : returnsWith (transferStep .idle (getTcb sigma0Tid) .oneString)
      (fun r _ => r.place.any fun x => x.point ≠ .items ∧
        (copyRun .idle (getTcb sigma0Tid) .threeBytes 5 x).any fun p =>
          p.1 = [(0x1000, 0x2000), (0x1001, 0x2001), (0x1002, 0x3000)] ∧
            returnsWith (transferStep .idle (getTcb sigma0Tid) p.2) (fun r _ => r.place.isNone)
              .threeBytes) .threeBytes = true := by
    decide +kernel
  obtain ⟨r, t, hstep, hr⟩ := exists_of_returnsWith hsteps
  cases r with
  | done tag => cases hr
  | more x =>
    obtain ⟨hx, hrun⟩ := of_decide_eq_true hr
    rw [Option.any_eq_true] at hrun
    obtain ⟨⟨P, y⟩, hrun, hlast⟩ := hrun
    obtain ⟨hP, hlast⟩ := of_decide_eq_true hlast
    exact ⟨x, y, t, P, hstep, hx, hP, stringRun_of_copyRun hrun, hlast⟩

/-- The copy of three bytes to a buffer of two parts. -/
theorem exists_outcome : ∃ (x y : Xfer) (t : KState) (P : List (Word × Word)),
    transferStep .idle (getTcb sigma0Tid) .oneString .threeBytes = .ok (.more x, t) ∧
      P = [(0x1000, 0x2000), (0x1001, 0x2001), (0x1002, 0x3000)] ∧
      Outcome .idle (getTcb sigma0Tid) (KState.threeBytes.reg .idle)
        (KState.threeBytes.buffer (getTcb sigma0Tid)) .oneString P (.more y) .threeBytes := by
  obtain ⟨x, y, t, P, hstep, hx, hP, hrun, -⟩ := exists_stringRun
  exact ⟨x, y, t, P, hstep, hP, StringRun.copies_string rfl rfl rfl hstep hx hrun⟩

end L4Thread
