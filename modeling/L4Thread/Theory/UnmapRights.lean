import L4Thread.Kernel.Unmap
import L4Thread.Lib.Mask
import L4Thread.Theory.PageTable

/-!
# The rights of an unmapped flexpage

`unmap_fpage` collects the reference bits that `mdb_flush` reports, and returns them in the flexpage
that it was given. The rights bits of the request are in that word, and stay in it.
-/

namespace L4Thread

namespace Unmapper

variable {μ : Type} {u : Unmapper μ} {fpage r : Fpage} {flush unmapAll : Bool} {pgsize fuel : Nat}
  {pt pt' : PageTable} {m m' : μ}

/-! ## Reports -/

/-- The calls of `mdb_flush`, with the bits that they report. -/
abbrev Reports := List (FlushArgs × Word)

/-- The union of the reported bits. -/
def Reports.refs (log : Reports) : Word := log.foldr (fun a refs => a.2 ||| refs) 0

theorem Reports.refs_concat (log : Reports) (a : FlushArgs × Word) :
    Reports.refs (log ++ [a]) = Reports.refs log ||| a.2 := by
  induction log with
  | nil => simp [refs]
  | cons b log ih =>
    simp only [refs, List.cons_append, List.foldr_cons] at ih ⊢
    rw [ih, BitVec.or_assoc]

/-- The walk with its calls of `mdb_flush` written down. -/
def recording (u : Unmapper μ) : Unmapper (μ × Reports) where
  space := u.space
  mdbFlush a st :=
    let r := u.mdbFlush a (st.1, st.2.1)
    (r.1, (r.2.1, (r.2.2, st.2.2 ++ [(a, r.1)])))
  releaseKernelMapping vaddr paddr log2size m := (u.releaseKernelMapping vaddr paddr log2size m.1, m.2)

/-- The state without the reports. -/
def forget (st : PageTable × (μ × Reports)) : PageTable × μ := (st.1, st.2.1)

variable {w : UnmapWalk} {st : PageTable × (μ × Reports)} {n : Nat}

/-- The walk with the reports does the same, and its rights are those reported. -/
structure Follows (r : UnmapWalk × (PageTable × (μ × Reports))) (q : UnmapWalk × (PageTable × μ)) :
    Prop where
  state : q = (r.1, forget r.2)
  refs : r.1.rwx = Reports.refs r.2.2.2

theorem recurseUp_follows (h : w.rwx = Reports.refs st.2.2) :
    Follows (u.recording.recurseUp fpage flush unmapAll n w st)
      (u.recurseUp fpage flush unmapAll n w (forget st)) := by
  induction n generalizing w st with
  | zero => exact ⟨rfl, h⟩
  | succ n ih =>
    simp only [recurseUp, forget]
    split
    · exact ih h
    · exact ⟨rfl, h⟩

theorem nextEntry_follows (h : w.rwx = Reports.refs st.2.2) :
    Follows (u.recording.nextEntry fpage flush unmapAll pgsize w st)
      (u.nextEntry fpage flush unmapAll pgsize w (forget st)) :=
  recurseUp_follows h

theorem unmapLeaf_follows (h : w.rwx = Reports.refs st.2.2) :
    Follows (u.recording.unmapLeaf fpage flush unmapAll pgsize w st)
      (u.unmapLeaf fpage flush unmapAll pgsize w (forget st)) := by
  have hspace : u.recording.space = u.space := rfl
  simp only [unmapLeaf, hspace]
  split
  · refine ⟨rfl, ?_⟩
    simp only [recording, Reports.refs_concat, h]
  · split
    · exact ⟨rfl, h⟩
    · exact ⟨rfl, h⟩

/-- One iteration: both break, or both go on in the same way. -/
theorem unmapStep_follows (h : w.rwx = Reports.refs st.2.2) :
    Option.Rel Follows (u.recording.unmapStep fpage flush unmapAll pgsize w st)
      (u.unmapStep fpage flush unmapAll pgsize w (forget st)) := by
  have htable : (forget st).1 = st.1 := rfl
  simp only [unmapStep, htable]
  split
  · exact .none
  · split
    · exact .none
    · split
      · exact .some ⟨rfl, h⟩
      · split
        · exact .none
        · split
          · exact .some (nextEntry_follows h)
          · split
            · exact .some ⟨rfl, h⟩
            · have hleaf : Follows (u.recording.unmapLeaf fpage flush unmapAll pgsize w st)
                  (u.unmapLeaf fpage flush unmapAll pgsize w (forget st)) := unmapLeaf_follows h
              rw [hleaf.state]
              exact .some (nextEntry_follows hleaf.refs)

theorem unmapLoop_follows (h : w.rwx = Reports.refs st.2.2) :
    u.unmapLoop fpage flush unmapAll pgsize fuel w (forget st) =
      (u.recording.unmapLoop fpage flush unmapAll pgsize fuel w st).map
        (fun r => (r.1, forget r.2)) ∧
      ∀ r ∈ u.recording.unmapLoop fpage flush unmapAll pgsize fuel w st,
        r.1 = Reports.refs r.2.2.2 := by
  induction fuel generalizing w st with
  | zero => exact ⟨rfl, nofun⟩
  | succ fuel ih =>
    rw [unmapLoop, unmapLoop]
    split
    · refine ⟨rfl, fun r hr => ?_⟩
      cases hr
      exact h
    · have hstep : Option.Rel Follows (u.recording.unmapStep fpage flush unmapAll pgsize w st)
          (u.unmapStep fpage flush unmapAll pgsize w (forget st)) := unmapStep_follows h
      cases hr : u.recording.unmapStep fpage flush unmapAll pgsize w st with
      | none =>
        rw [hr] at hstep
        cases hq : u.unmapStep fpage flush unmapAll pgsize w (forget st) with
        | none =>
          refine ⟨rfl, fun r hr => ?_⟩
          cases hr
          exact h
        | some q =>
          rw [hq] at hstep
          cases hstep
      | some r =>
        rw [hr] at hstep
        cases hq : u.unmapStep fpage flush unmapAll pgsize w (forget st) with
        | none =>
          rw [hq] at hstep
          cases hstep
        | some q =>
          rw [hq] at hstep
          cases hstep with
          | some hf =>
            rw [hf.state]
            exact ih hf.refs

end Unmapper

/-! ## The returned flexpage -/

namespace Fpage

variable {f : Fpage} {rwx : Word}

theorem getLsbD_rights (i : Nat) : (7 : Word).getLsbD i = decide (i < 3) :=
  Mask.getLsbD_low (w := 64) (n := 3) (by decide) i

theorem getRwx_setRwx : (f.setRwx rwx).getRwx = f.getRwx ||| rwx &&& 7 := by
  apply BitVec.eq_of_getLsbD_eq
  intro i hi
  simp only [getRwx, setRwx, BitVec.getLsbD_and, BitVec.getLsbD_or, getLsbD_rights]
  cases f.raw.getLsbD i <;> cases rwx.getLsbD i <;> cases decide (i < 3) <;> rfl

theorem getBase_setRwx : (f.setRwx rwx).getBase = f.getBase := by
  apply BitVec.eq_of_getLsbD_eq
  intro i hi
  simp only [getBase, setRwx, BitVec.getLsbD_shiftLeft, BitVec.getLsbD_ushiftRight,
    BitVec.getLsbD_or, BitVec.getLsbD_and, getLsbD_rights]
  rcases Nat.lt_or_ge i 10 with hlt | hge
  · simp [hlt]
  · have hbit : ¬10 + (i - 10) < 3 := by omega
    simp [hbit]

theorem sizeField_setRwx : (f.setRwx rwx).sizeField = f.sizeField := by
  have hlt : (rwx &&& 7).toNat < 2 ^ 4 := by
    rw [BitVec.toNat_and]
    exact Nat.lt_of_le_of_lt Nat.and_le_right (by decide)
  have hdiv : (f.setRwx rwx).raw.toNat / 2 ^ 4 = f.raw.toNat / 2 ^ 4 := by
    rw [setRwx, BitVec.toNat_or, Nat.or_div_two_pow, Nat.div_eq_of_lt hlt, Nat.or_zero]
  exact congrArg (· % 64) hdiv

/-- The rights are those of the word if and only if no other ones were there before. -/
theorem getRwx_setRwx_eq_iff :
    (f.setRwx rwx).getRwx = rwx &&& 7 ↔ f.getRwx &&& ~~~rwx = 0 := by
  rw [getRwx_setRwx]
  constructor
  · intro h
    apply BitVec.eq_of_getLsbD_eq
    intro i hi
    have hbit := congrArg (fun x : Word => x.getLsbD i) h
    simp only [getRwx, BitVec.getLsbD_or, BitVec.getLsbD_and] at hbit
    simp only [getRwx, BitVec.getLsbD_and, BitVec.getLsbD_not, hi, decide_true, Bool.true_and]
    revert hbit
    cases f.raw.getLsbD i <;> cases rwx.getLsbD i <;> cases (7 : Word).getLsbD i <;> simp
  · intro h
    apply BitVec.eq_of_getLsbD_eq
    intro i hi
    have hbit := congrArg (fun x : Word => x.getLsbD i) h
    simp only [getRwx, BitVec.getLsbD_and, BitVec.getLsbD_not, hi, decide_true, Bool.true_and]
      at hbit
    simp only [getRwx, BitVec.getLsbD_or, BitVec.getLsbD_and]
    revert hbit
    cases f.raw.getLsbD i <;> cases rwx.getLsbD i <;> cases (7 : Word).getLsbD i <;> simp

end Fpage

namespace Unmapper

variable {μ : Type} {u : Unmapper μ} {fpage r : Fpage} {flush unmapAll : Bool} {fuel : Nat}
  {pt pt' : PageTable} {m m' : μ} {log : Reports}

/-- The run with the reports is the run, and returns what was reported. -/
theorem unmapFpage_follows
    (h : u.recording.unmapFpage fpage flush unmapAll fuel (pt, (m, [])) =
      some (r, (pt', (m', log)))) :
    u.unmapFpage fpage flush unmapAll fuel (pt, m) = some (r, (pt', m')) ∧
      r = fpage.setRwx (Reports.refs log) := by
  unfold unmapFpage at h ⊢
  split at h
  · rename_i hsmall
    cases h
    rw [if_pos hsmall]
    exact ⟨rfl, rfl⟩
  · rename_i hsize
    rw [if_neg hsize]
    dsimp only at h ⊢
    obtain ⟨⟨rwx, q⟩, hq, heq⟩ := Option.map_eq_some_iff.mp h
    cases heq
    have hstart : ∀ num pgsize, (startWalk fpage num pgsize).rwx =
        Reports.refs ((pt, (m, [])) : PageTable × (μ × Reports)).2.2 := fun _ _ => rfl
    obtain ⟨hrun, hrefs⟩ := unmapLoop_follows (u := u) (hstart _ _)
    rw [hq] at hrun
    have hplain : (pt, m) = forget (pt, (m, ([] : Reports))) := rfl
    rw [hplain, hrun]
    exact ⟨rfl, congrArg fpage.setRwx (hrefs _ hq)⟩

/-- The returned flexpage has the rights that were reported if and only if those that were asked for
are among them. -/
theorem unmapFpage_rights_iff
    (h : u.recording.unmapFpage fpage flush unmapAll fuel (pt, (m, [])) =
      some (r, (pt', (m', log)))) :
    u.unmapFpage fpage flush unmapAll fuel (pt, m) = some (r, (pt', m')) ∧
      r.getBase = fpage.getBase ∧ r.sizeField = fpage.sizeField ∧
      (r.getRwx = Reports.refs log &&& 7 ↔ fpage.getRwx &&& ~~~Reports.refs log = 0) := by
  obtain ⟨hrun, rfl⟩ := unmapFpage_follows h
  exact ⟨hrun, Fpage.getBase_setRwx, Fpage.sizeField_setRwx, Fpage.getRwx_setRwx_eq_iff⟩

/-- `mdb_flush` in a space that nothing has been mapped from. -/
def flushAlone (a : FlushArgs) (st : PageTable × Unit) : Word × (PageTable × Unit) :=
  let e := st.1.get a.fPg
  if !a.unmapSelf then (0, st)
  else
    let refs := if e.low.getLsbD 2 then 6 else if e.low.getLsbD 1 then 4 else 0
    if a.fp.isRwx then (refs, (st.1.clear a.fPg a.fHwpgsize false, ()))
    else if a.fp.isWrite then (refs, (st.1.set a.fPg { e with low := e.low &&& ~~~4 }, ()))
    else (refs, st)

def alone : Unmapper Unit := ⟨.zero, flushAlone, fun _ _ _ m => m⟩

/-- The page of 16 KB that is mapped in the sample is unmapped with the rights `rwx`. -/
theorem exists_alone (rwx : Word) (P : Fpage × Reports → Bool)
    (h : (match alone.recording.unmapFpage ⟨0x40e0 ||| rwx⟩ true false 20
        (PgOp.sampleTable, ((), [])) with
      | some (r, (_, (_, log))) => P (r, log)
      | none => false) = true) :
    ∃ r pt log, alone.recording.unmapFpage ⟨0x40e0 ||| rwx⟩ true false 20
      (PgOp.sampleTable, ((), [])) = some (r, (pt, ((), log))) ∧ P (r, log) = true := by
  split at h
  · rename_i r pt m log hrun
    exact ⟨r, pt, log, hrun, h⟩
  · cases h

/-- A flush of the read right returns that the page was read and written. -/
theorem exists_rights : ∃ r pt log, alone.recording.unmapFpage ⟨0x40e4⟩ true false 20
    (PgOp.sampleTable, ((), [])) = some (r, (pt, ((), log))) ∧ r.getRwx = Reports.refs log &&& 7 := by
  obtain ⟨r, pt, log, hrun, hP⟩ := exists_alone 4 (fun q => decide (Reports.refs q.2 = 6))
    (by decide +kernel)
  have hrefs : Reports.refs log = 6 := of_decide_eq_true hP
  refine ⟨r, pt, log, hrun, (unmapFpage_rights_iff hrun).2.2.2.mpr ?_⟩
  rw [hrefs]
  decide

/-- A flush of all rights returns that the page was executed, which was not reported. -/
theorem exists_not_rights : ∃ r pt log, alone.recording.unmapFpage ⟨0x40e7⟩ true false 20
    (PgOp.sampleTable, ((), [])) = some (r, (pt, ((), log))) ∧
      r.getRwx = 7 ∧ Reports.refs log &&& 7 = 6 := by
  obtain ⟨r, pt, log, hrun, hP⟩ := exists_alone 7
    (fun q => decide (q.1.getRwx = 7 ∧ Reports.refs q.2 &&& 7 = 6)) (by decide +kernel)
  exact ⟨r, pt, log, hrun, of_decide_eq_true hP⟩

end Unmapper

end L4Thread
