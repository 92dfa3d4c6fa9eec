import L4Thread.Theory.StringCopy

/-!
# The strings of a message

The typed items of a message describe strings, and the buffer registers of its receiver describe
buffers. `extended_transfer` copies the first string to the first buffer and so on. If it does not
tell the threads about an overflow, each string has been copied as a whole.
-/

namespace L4Thread

open TrapM Kernel Scatter

/-! ## Strings and buffers -/

theorem le_lastItem (regs : Nat → Word) (limit i : Nat) : i ≤ lastItem regs limit i := by
  induction i using lastItem.induct regs limit with
  | case1 i hnext ih =>
    rw [lastItem_of hnext]
    exact (Nat.le_of_lt (lt_behindItem regs i)).trans ih
  | case2 i hnext => rw [lastItem_of_not hnext]

theorem lt_behindBuffer (br : Nat → Word) (i : Nat) : i < behindBuffer br i := by
  induction i using behindBuffer.induct br with
  | case1 i hnext ih =>
    rw [behindBuffer_of hnext.1 hnext.2]
    exact (lt_behindItem br i).trans ih
  | case2 i hnext =>
    rw [behindBuffer_of_not hnext]
    exact lt_behindItem br i

/-- The bytes of the strings in the typed items from a register on. -/
def messageStrings (mr : Nat → Word) (total i : Nat) : List (List Word) :=
  if i < total then
    if (MsgItem.mk (mr i)).isMapItem = true ∨ (MsgItem.mk (mr i)).isGrantItem = true then
      messageStrings mr total (i + 2)
    else if (MsgItem.mk (mr i)).isStringItem = true then
      stringBytes mr total i :: messageStrings mr total (behindItem mr (lastItem mr total i))
    else []
  else []
termination_by total - i
decreasing_by
  · omega
  · have hle := le_lastItem mr total i
    have hlt := lt_behindItem mr (lastItem mr total i)
    omega

/-- The bytes of the string buffers from a register on. -/
def stringBuffers (br : Nat → Word) (accept : Bool) (i : Nat) : List (List Word) :=
  if accept = true ∧ i + (MsgItem.mk (br i)).getStringPtrCount ≤ ipcNumBr ∧
      (MsgItem.mk (br i)).isStringItem = true then
    stringBytes br ipcNumBr i ::
      stringBuffers br ((MsgItem.mk (br i)).moreStrings && behindBuffer br i < ipcNumBr)
        (behindBuffer br i)
  else []
termination_by ipcNumBr - i
decreasing_by
  rename_i h
  have hpos := (MsgItem.mk (br i)).getStringPtrCount_pos
  have hlt := lt_behindBuffer br i
  omega

/-- The strings that are still to be copied. -/
abbrev Xfer.strings (mr : Nat → Word) (x : Xfer) : List (List Word) :=
  messageStrings mr x.totalMrs x.srcIdx

/-- The buffers that are still empty. -/
abbrev Xfer.buffers (br : Nat → Word) (x : Xfer) : List (List Word) :=
  stringBuffers br x.acceptStrings x.brIdx

variable {s t : KState} {src dst : TcbPtr} {x y x₀ : Xfer} {mr br : Nat → Word}
  {P : List (Word × Word)}

theorem Accepted.strings_eq (h : Accepted mr br x) : x.strings mr =
    stringBytes mr x.totalMrs x.srcIdx :: (x.behind mr br).strings mr := by
  rw [Xfer.strings, messageStrings, if_pos h.more, if_neg h.notMap, if_pos h.isString]
  rfl

theorem Accepted.buffers_eq (h : Accepted mr br x) : x.buffers br =
    stringBytes br ipcNumBr x.brIdx :: (x.behind mr br).buffers br := by
  rw [Xfer.buffers, stringBuffers, if_pos ⟨h.accept, h.fits, h.buffer⟩]
  rfl

/-! ## Runs -/

/-- A run of `extended_transfer` from a place on, as for the copy loop. -/
inductive MessageRun (src dst : TcbPtr) (mr br : Nat → Word) :
    Xfer → List (Word × Word) → MsgTag → KState → Prop
  | next {x y : Xfer} {s t u : KState} {P : List (Word × Word)} {tag : MsgTag} :
    s.reg src = mr → s.buffer dst = br → transferStep src dst x s = .ok (.more y, t) →
    MessageRun src dst mr br y P tag u → MessageRun src dst mr br x (y.copied ++ P) tag u
  | done {x : Xfer} {s t : KState} {tag : MsgTag} : s.reg src = mr → s.buffer dst = br →
    transferStep src dst x s = .ok (.done tag, t) → MessageRun src dst mr br x [] tag t

/-- What a run of `extended_transfer` has copied. -/
inductive MessageOutcome (src dst : TcbPtr) (mr br : Nat → Word) (x₀ : Xfer)
    (P : List (Word × Word)) : MsgTag → KState → Prop
  | delivered {tag : MsgTag} {t : KState} : tag = x₀.msgtag →
    P = pairsOf (x₀.strings mr) (x₀.buffers br) → FitsIn (x₀.strings mr) (x₀.buffers br) →
    MessageOutcome src dst mr br x₀ P tag t
  | overflow {tag : MsgTag} {t : KState} : Overflowed src dst x₀ P tag t →
    P <+: pairsOf (x₀.strings mr) (x₀.buffers br) → MessageOutcome src dst mr br x₀ P tag t

/-- The pairs have been copied at a place of the item loop. -/
structure AtItem (mr br : Nat → Word) (x₀ : Xfer) (P : List (Word × Word)) (x : Xfer) : Prop where
  point : x.point = .items
  msgtag : x.msgtag = x₀.msgtag
  totalLen : x.totalLen = x₀.totalLen + BitVec.ofNat 64 P.length
  pairs : pairsOf (x₀.strings mr) (x₀.buffers br) = P ++ pairsOf (x.strings mr) (x.buffers br)
  fits : FitsIn (x.strings mr) (x.buffers br) → FitsIn (x₀.strings mr) (x₀.buffers br)

/-- The pairs have been copied at a place of `extended_transfer`. -/
inductive InMessage (mr br : Nat → Word) (x₀ : Xfer) : List (Word × Word) → Xfer → Prop
  | item {P : List (Word × Word)} {x : Xfer} : AtItem mr br x₀ P x → InMessage mr br x₀ P x
  | string {P P' : List (Word × Word)} {x₁ x : Xfer} : AtItem mr br x₀ P x₁ → Accepted mr br x₁ →
    x.point ≠ .items → InString mr br x₁ P' x → InMessage mr br x₀ (P ++ P') x

/-! ## Iterations -/

namespace AtItem

/-- A string has been copied. -/
theorem behind (h : AtItem mr br x₀ P x) (ha : Accepted mr br x) {P' : List (Word × Word)}
    (hcopied : Copied mr br x P' y) : AtItem mr br x₀ (P ++ P') y := by
  have hlen := hcopied.length_eq
  obtain rfl := hcopied.eq_behind
  obtain rfl := hcopied.eq_pairs
  have hpairs := h.pairs
  have hfits := h.fits
  rw [ha.strings_eq, ha.buffers_eq] at hpairs hfits
  exact
    { point := rfl
      msgtag := h.msgtag
      totalLen := by
        rw [Xfer.behind, h.totalLen, ← hlen, List.length_append, BitVec.ofNat_add,
          BitVec.add_assoc]
      pairs := by rw [hpairs, pairsOf_cons, List.append_assoc, Xfer.stringPairs]
      fits := fun hrest => by
        refine hfits ⟨?_, hrest⟩
        rw [Xfer.stringPairs, List.length_zip] at hlen
        exact hlen ▸ Nat.min_le_right _ _ }

/-- An overflow in a string is one of the message. -/
theorem overflowed (h : AtItem mr br x₀ P x) {P' : List (Word × Word)} {tag : MsgTag}
    (hover : Overflowed src dst x P' tag t) : Overflowed src dst x₀ (P ++ P') tag t := by
  have hlen : x.totalLen + BitVec.ofNat 64 P'.length =
      x₀.totalLen + BitVec.ofNat 64 (P ++ P').length := by
    rw [h.totalLen, List.length_append, BitVec.ofNat_add, BitVec.add_assoc]
  exact
    { tag := by rw [hover.tag, h.msgtag]
      sender := by rw [hover.sender, hlen]
      receiver := fun hne => by rw [hover.receiver hne, hlen] }

/-- What has been copied of a string is what comes next in the message. -/
theorem isPrefix (h : AtItem mr br x₀ P x) (ha : Accepted mr br x) {P' : List (Word × Word)}
    (hpre : P' <+: x.stringPairs mr br) :
    P ++ P' <+: pairsOf (x₀.strings mr) (x₀.buffers br) := by
  rw [h.pairs, ha.strings_eq, ha.buffers_eq, pairsOf_cons]
  exact (List.prefix_append_right_inj P).2 (hpre.trans (List.prefix_append _ _))

end AtItem

/-- What an iteration of the item loop leads to. -/
inductive ItemStep (src dst : TcbPtr) (mr : Nat → Word) (x : Xfer) : XferResult → KState → Prop
  | map {t : KState} : x.srcIdx < x.totalMrs →
    ((MsgItem.mk (mr x.srcIdx)).isMapItem = true ∨ (MsgItem.mk (mr x.srcIdx)).isGrantItem = true) →
    ItemStep src dst mr x (.more { x with srcIdx := x.srcIdx + 2 }) t
  | string {y : Xfer} {t : KState} : y.point ≠ .items → ItemStep src dst mr x (.more y) t
  | overflow {tag : MsgTag} {t : KState} : Overflowed src dst x [] tag t →
    ItemStep src dst mr x (.done tag) t
  | done {t : KState} : ¬x.srcIdx < x.totalMrs → ItemStep src dst mr x (.done x.msgtag) t

theorem wp_transferItem_step (hmr : s.reg src = mr) :
    wp (fun _ => True) (transferItem src dst x) (ItemStep src dst mr x) s := by
  have hover {u : KState} :
      wp (fun _ => True) (messageOverflow src dst x) (ItemStep src dst mr x) u :=
    wp_messageOverflow_of (BitVec.add_zero _).symm rfl fun _ _ ht => .overflow ht
  rw [transferItem, wp_ite]
  split
  · rename_i hmore
    rw [wp_bind]
    refine wp_getMr_of ?_
    rw [wp_ite, hmr]
    split
    · rename_i hmap
      rw [wp_bind]
      refine wp_getBr_of ?_
      rw [wp_ite]
      split
      · exact hover
      · exact wp_bind_of_forall fun _ _ => wp_bind_of_forall fun _ _ => .map hmore hmap
    · rw [wp_ite]
      split
      · rw [stringItem]
        refine wp_bind_of_forall fun _ _ => ?_
        rw [wp_ite]
        split
        · exact hover
        · refine wp_bind_of_forall fun _ _ => wp_bind_of_forall fun _ _ => ?_
          rw [wp_ite]
          split
          · exact hover
          · refine wp_bind_of_forall fun _ _ => ?_
            rw [wp_ite]
            split
            · exact hover
            · refine .string fun hp => ?_
              cases hp
      · exact hover
  · rename_i hend
    rw [transferDone]
    exact wp_bind_of_forall fun _ _ => wp_bind_of_forall fun _ _ => .done hend

/-- Where an iteration leads to. -/
def Advances (src dst : TcbPtr) (mr br : Nat → Word) (x₀ : Xfer) (P : List (Word × Word))
    (r : XferResult) (t : KState) : Prop :=
  (∃ y, r = .more y ∧ InMessage mr br x₀ (P ++ y.copied) y) ∨
    ∃ tag, r = .done tag ∧ MessageOutcome src dst mr br x₀ P tag t

theorem copied_of_items (hp : x.point = .items) : x.copied = [] := by
  rw [Xfer.copied, hp]

/-- A typed item that grants or maps pages. -/
theorem AtItem.map (h : AtItem mr br x₀ P x) (hmore : x.srcIdx < x.totalMrs)
    (hmap : (MsgItem.mk (mr x.srcIdx)).isMapItem = true ∨
      (MsgItem.mk (mr x.srcIdx)).isGrantItem = true) :
    AtItem mr br x₀ P { x with srcIdx := x.srcIdx + 2 } := by
  have hstrings : x.strings mr = Xfer.strings mr { x with srcIdx := x.srcIdx + 2 } := by
    rw [Xfer.strings, messageStrings, if_pos hmore, if_pos hmap]
  have hpairs := h.pairs
  have hfits := h.fits
  rw [hstrings] at hpairs hfits
  exact
    { point := h.point, msgtag := h.msgtag, totalLen := h.totalLen, pairs := hpairs
      fits := hfits }

theorem AtItem.step (h : AtItem mr br x₀ P x) (hmr : s.reg src = mr) (hbr : s.buffer dst = br)
    {r : XferResult} (hstep : transferStep src dst x s = .ok (r, t)) :
    Advances src dst mr br x₀ P r t := by
  have hitem : ItemStep src dst mr x r t := by
    have hrun := hstep
    rw [transferStep, h.point] at hrun
    exact wp_ok (wp_transferItem_step hmr) hrun
  cases hitem with
  | map hmore hmap =>
    have hnext := h.map hmore hmap
    refine .inl ⟨_, rfl, ?_⟩
    rw [copied_of_items hnext.point, List.append_nil]
    exact .item hnext
  | string hne =>
    obtain ⟨ha, c, hc, hat⟩ := copyAt_of_transferStep h.point hmr hbr hstep hne
    refine .inl ⟨_, rfl, .string h ha hne ?_⟩
    rw [InString, Xfer.copied, hc]
    exact hat
  | overflow hover =>
    have htold := h.overflowed hover
    rw [List.append_nil] at htold
    refine .inr ⟨_, rfl, .overflow htold ?_⟩
    rw [h.pairs]
    exact List.prefix_append _ _
  | done hend =>
    have hstrings : x.strings mr = [] := by
      rw [Xfer.strings, messageStrings, if_neg hend]
    have hpairs := h.pairs
    have hfits := h.fits
    rw [hstrings] at hpairs hfits
    rw [pairsOf_nil, List.append_nil] at hpairs
    exact .inr ⟨_, rfl, .delivered h.msgtag hpairs.symm (hfits trivial)⟩

/-- An iteration of `extended_transfer`. -/
theorem InMessage.step (h : InMessage mr br x₀ P x) (hmr : s.reg src = mr)
    (hbr : s.buffer dst = br) {r : XferResult} (hstep : transferStep src dst x s = .ok (r, t)) :
    Advances src dst mr br x₀ P r t := by
  cases h with
  | item h => exact h.step hmr hbr hstep
  | string h ha hne hin =>
    rcases wp_ok (hin.step hne hmr hbr) hstep with ⟨y, rfl, hy⟩ | ⟨tag, rfl, hout⟩
    · refine .inl ⟨y, rfl, ?_⟩
      rw [List.append_assoc]
      by_cases hp : y.point = .items
      · rw [InString, hp] at hy
        exact .item (h.behind ha hy)
      · exact .string h ha hp hy
    · refine .inr ⟨tag, rfl, ?_⟩
      cases hout with
      | tooLong htold hpairs _ =>
        exact .overflow (h.overflowed htold) (h.isPrefix ha (hpairs ▸ List.prefix_rfl))
      | clipped htold hpre _ => exact .overflow (h.overflowed htold) (h.isPrefix ha hpre)

theorem MessageRun.outcome_of_inMessage {Q : List (Word × Word)} {tag : MsgTag} {u : KState}
    (hrun : MessageRun src dst mr br x Q tag u) (h : InMessage mr br x₀ P x) :
    MessageOutcome src dst mr br x₀ (P ++ Q) tag u := by
  induction hrun generalizing P with
  | next hmr hbr hstep _ ih =>
    rcases h.step hmr hbr hstep with ⟨y, hy, hin⟩ | ⟨tag, hdone, -⟩
    · cases hy
      rw [← List.append_assoc]
      exact ih hin
    · cases hdone
  | done hmr hbr hstep =>
    rw [List.append_nil]
    rcases h.step hmr hbr hstep with ⟨y, hy, -⟩ | ⟨tag, hdone, hout⟩
    · cases hy
    · cases hdone
      exact hout

/-! ## The law -/

theorem keeps_buffer_modTcb {p q : TcbPtr} {f : Tcb → Tcb} (h : ∀ b, (f b).utcb = b.utcb) :
    Keeps (fun s : KState => s.buffer q) (modTcb p f) :=
  .modify fun s => funext fun i => by rw [KState.buffer, KState.buffer, utcbOf_update (h _)]

/-- Where `extended_transfer` starts. -/
def Xfer.first (br : Nat → Word) (msgtag : MsgTag) : Xfer :=
  { msgtag, brIdx := 1, totalMrs := msgtag.getUntyped + msgtag.getTyped, totalLen := 0
    acceptStrings := (Acceptor.mk (br 0)).acceptStrings, srcIdx := msgtag.getUntyped + 1
    point := .items }

theorem extendedTransfer_first {msgtag : MsgTag} (hbr : s.buffer dst = br)
    (hstart : extendedTransfer src dst msgtag s = .ok (x, t)) : x = .first br msgtag := by
  have hstate {p : TcbPtr} {state : ThreadState} :
      Keeps (fun s : KState => s.buffer dst) (setState p state) := keeps_buffer_modTcb fun _ => rfl
  have hpartner {p : TcbPtr} {tid : ThreadId} :
      Keeps (fun s : KState => s.buffer dst) (setPartner p tid) := keeps_buffer_modTcb fun _ => rfl
  have hcopy : Keeps (fun s : KState => s.buffer dst)
      (modTcb src fun c => { c with ipcCopy := { c.ipcCopy with copyLength := 0 } }) :=
    keeps_buffer_modTcb fun _ => rfl
  have hwp : wp (fun _ => True) (extendedTransfer src dst msgtag)
      (fun x _ => x = .first br msgtag) s := by
    rw [extendedTransfer, wp_ite]
    split
    · trivial
    · rw [wp_bind]
      refine hstate.wp fun _ s1 h1 => ?_
      rw [wp_bind]
      refine hstate.wp fun _ s2 h2 => ?_
      rw [wp_bind, wp_readTcb, wp_bind]
      refine hpartner.wp fun _ s3 h3 => ?_
      rw [wp_bind]
      refine hcopy.wp fun _ s4 h4 => ?_
      rw [wp_bind]
      refine wp_getBr_of ?_
      rw [h4, h3, h2, h1, hbr]
      rfl
  have hfirst := wp_ok hwp hstart
  exact hfirst

section Law

variable {β : Type} {msgtag tag : MsgTag} {u : KState}

/-- The message has come to the receiver as a whole: the buffers hold what the strings held. -/
structure ReadBack (mem : Word → β) (strings buffers : List (List Word)) (P : List (Word × Word)) :
    Prop where
  pairs : P = pairsOf strings buffers
  contents : List.zipWith (fun xs ys => (ys.take xs.length).map (copy mem P)) strings buffers =
    strings.map (List.map mem)

/-- Whatever happens between the iterations of `extended_transfer` to anything but the registers
that describe the strings and the buffers, which do not overlap: it writes nothing but the buffers,
and those in their order; and either all strings have arrived, or both threads are told of an
overflow and how many bytes have. -/
theorem MessageRun.delivers (mem : Word → β) (hbr : s.buffer dst = br)
    (hstart : extendedTransfer src dst msgtag s = .ok (x, t))
    (hrun : MessageRun src dst mr br x P tag u) (hnodup : (x.buffers br).flatten.Nodup)
    (hdisj : ∀ a ∈ (x.strings mr).flatten, a ∉ (x.buffers br).flatten) :
    (∀ a, a ∉ (x.buffers br).flatten → copy mem P a = mem a) ∧
      P <+: pairsOf (x.strings mr) (x.buffers br) ∧ (∀ p ∈ P, copy mem P p.2 = mem p.1) ∧
      (tag = msgtag ∧ ReadBack mem (x.strings mr) (x.buffers br) P ∨
        Overflowed src dst (.first br msgtag) P tag u) := by
  obtain rfl := extendedTransfer_first hbr hstart
  have hin : InMessage mr br (.first br msgtag) [] (.first br msgtag) := .item
    { point := rfl, msgtag := rfl, totalLen := (BitVec.add_zero _).symm, pairs := rfl
      fits := fun hfits => hfits }
  have hout : MessageOutcome src dst mr br (.first br msgtag) P tag u :=
    hrun.outcome_of_inMessage hin
  have hpre : P <+: pairsOf (Xfer.strings mr (.first br msgtag))
      (Xfer.buffers br (.first br msgtag)) := by
    cases hout with
    | delivered _ hpairs _ => exact hpairs ▸ List.prefix_rfl
    | overflow _ hpre => exact hpre
  have hsub := (hpre.sublist.map Prod.snd).trans map_snd_pairsOf_sublist
  refine ⟨fun a ha => copy_of_notMem fun hmem => ha (hsub.subset hmem), hpre, fun p hp => ?_, ?_⟩
  · refine copy_apply (hsub.nodup hnodup) (fun q hq hmem => ?_) hp
    exact hdisj _ (fst_mem_of_mem_pairsOf (hpre.subset hq)) (hsub.subset hmem)
  · cases hout with
    | delivered htag hpairs hfits =>
      refine .inl ⟨htag, hpairs, ?_⟩
      rw [hpairs]
      exact copy_pairsOf hfits hnodup hdisj
    | overflow hover _ => exact .inr hover

end Law

/-- A run of the copy loop is part of one of `extended_transfer`. -/
theorem StringRun.messageRun {r : XferResult} {u v : KState} {Q : List (Word × Word)} {tag : MsgTag}
    (hrun : StringRun src dst mr br x P r u) (hr : r = .more y)
    (hrest : MessageRun src dst mr br y Q tag v) : MessageRun src dst mr br x (P ++ Q) tag v := by
  induction hrun with
  | next _ hmr hbr hstep _ ih =>
    rw [List.append_assoc]
    exact .next hmr hbr hstep (ih hr)
  | overflow => cases hr
  | items =>
    cases hr
    exact hrest

/-- The three bytes in the two parts of the buffer. -/
theorem exists_delivers : ∃ (x : Xfer) (s t : KState) (P : List (Word × Word)) (tag : MsgTag),
    extendedTransfer .idle (getTcb sigma0Tid) (.tag 2 0 0) .threeBytes = .ok (x, s) ∧
      MessageRun .idle (getTcb sigma0Tid) (KState.threeBytes.reg .idle)
        (KState.threeBytes.buffer (getTcb sigma0Tid)) x P tag t ∧
      copy id P 0x3000 = (0x1002 : Word) := by
  have hstrings : (Xfer.oneString.strings (KState.threeBytes.reg .idle)).flatten =
      [0x1000, 0x1001, 0x1002] := by decide +kernel
  have hbuffers : (Xfer.oneString.buffers (KState.threeBytes.buffer (getTcb sigma0Tid))).flatten =
      [0x2000, 0x2001, 0x3000, 0x3001] := by decide +kernel
  have hfirst : returnsWith (extendedTransfer .idle (getTcb sigma0Tid) (.tag 2 0 0))
      (fun x _ => x = .oneString) .threeBytes = true := by decide +kernel
  obtain ⟨x, s, hstart, hx⟩ := exists_of_returnsWith hfirst
  obtain rfl := of_decide_eq_true hx
  obtain ⟨x, y, _, P, hstep, -, rfl, hrun, hlast⟩ := exists_stringRun
  obtain ⟨r, t, hlast, hr⟩ := exists_of_returnsWith hlast
  cases r with
  | more z => cases hr
  | done tag =>
    have hmessage := MessageRun.next rfl rfl hstep (hrun.messageRun rfl (.done rfl rfl hlast))
    have hdisj : ∀ a ∈ (Xfer.oneString.strings (KState.threeBytes.reg .idle)).flatten,
        a ∉ (Xfer.oneString.buffers (KState.threeBytes.buffer (getTcb sigma0Tid))).flatten := by
      rw [hstrings, hbuffers]
      simp
    have hnodup : (Xfer.oneString.buffers
        (KState.threeBytes.buffer (getTcb sigma0Tid))).flatten.Nodup := by
      rw [hbuffers]
      decide
    obtain ⟨-, -, hcopied, -⟩ := MessageRun.delivers id rfl hstart hmessage hnodup hdisj
    exact ⟨_, s, t, _, tag, hstart, hmessage, hcopied (0x1002, 0x3000) (by simp)⟩

end L4Thread
