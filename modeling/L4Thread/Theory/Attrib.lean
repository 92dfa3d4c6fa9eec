import L4Thread.Kernel.Attrib
import L4Thread.Theory.UnmapFpage

/-!
# Memory attributes of flexpages

The walk of `attrib_fpage` goes into a table of smaller pages and does not come back: of a row of
entries it visits those up to the first one with a table below, and of that table again. So a page
gets the attribute unless an entry before it, in one of the tables on the way to it, is split.
-/

namespace L4Thread

open PageTable Unmapper

variable {pt pt' pt₁ : PageTable} {att : BitVec 3} {sp : Space} {attrib : Word} {pgsize lo s r n : Nat}
  {a v : Word} {p q : PgPtr} {R R' : Word → Prop} {f : Fpage}

/-! ## Attributes -/

namespace Pgent

variable {e : Pgent}

theorem attributes_setAttrib : (e.setAttrib att).attributes = att := by
  refine BitVec.eq_of_getLsbD_eq fun i hi => ?_
  simp only [attributes, setAttrib, BitVec.getLsbD_extractLsb', BitVec.getLsbD_or,
    BitVec.getLsbD_and, BitVec.getLsbD_not, BitVec.getLsbD_shiftLeft, BitVec.getLsbD_setWidth]
  interval_cases i <;> simp

/-- The attribute that the entry has. -/
theorem setAttrib_of_eq (h : e.attributes = att) : e.setAttrib att = e := by
  have hlow : (e.low &&& ~~~((7 : BitVec 56) <<< 3)) ||| att.setWidth 56 <<< 3 = e.low := by
    subst h
    refine BitVec.eq_of_getLsbD_eq fun i hi => ?_
    simp only [attributes, BitVec.getLsbD_extractLsb', BitVec.getLsbD_or, BitVec.getLsbD_and,
      BitVec.getLsbD_not, BitVec.getLsbD_shiftLeft, BitVec.getLsbD_setWidth]
    rcases Nat.lt_or_ge i 6 with h6 | h6
    · interval_cases i <;> simp
    · have hfield : (7#56).getLsbD (i - 3) = false :=
        Nat.testBit_lt_two_pow <| (by decide : 7 < 2 ^ 3).trans_le <|
          Nat.pow_le_pow_right (by decide) (by omega)
      simp [hfield, hi, show ¬i - 3 < 3 by omega]
  rw [setAttrib, hlow]

theorem setAttrib_setAttrib : (e.setAttrib att).setAttrib att = e.setAttrib att :=
  setAttrib_of_eq attributes_setAttrib

end Pgent

/-- Entries have got the attribute, or have been left alone. -/
def Repaints (att : BitVec 3) (pt pt' : PageTable) : Prop :=
  ∀ q, pt'.get q = pt.get q ∨ pt'.get q = (pt.get q).setAttrib att

namespace Repaints

theorem refl : Repaints att pt pt := fun _ => .inl rfl

theorem trans (h : Repaints att pt pt₁) (h' : Repaints att pt₁ pt') : Repaints att pt pt' := by
  intro q
  rcases h' q with hq | hq
  · rw [hq]
    exact h q
  · rw [hq]
    rcases h q with hq₁ | hq₁
    · exact .inr (by rw [hq₁])
    · exact .inr (by rw [hq₁, Pgent.setAttrib_setAttrib])

theorem split_iff (h : Repaints att pt pt') : (pt'.get q).Split s ↔ (pt.get q).Split s := by
  rcases h q with hq | hq
  · rw [hq]
  · rw [hq]
    exact .rfl

/-- The attribute is no part of a walk. -/
theorem lookupFrom_eq (h : Repaints att pt pt') (size : Nat) (p : PgPtr) :
    pt'.lookupFrom v size p = pt.lookupFrom v size p := by
  refine lookupFrom_eq_of_kinds (fun q k => ?_) size p
  rcases h q with hq | hq
  · rw [hq]
    exact ⟨rfl, rfl⟩
  · rw [hq]
    exact ⟨rfl, rfl⟩

end Repaints

/-- The mappable pages of a region have got the attribute, and nothing else has. -/
structure Painted (sp : Space) (att : BitVec 3) (lo s : Nat) (R : Word → Prop)
    (pt pt' : PageTable) : Prop where
  repaints : Repaints att pt pt'
  hit {v : Word} {p : PgPtr} {r : Nat} : v.toNat < 2 ^ 41 → R v →
    pt.lookupFrom v s (entryPtr v s) = some (p, r) →
    sp.isMappable (firstAddress lo r v) = true → pt'.get p = (pt.get p).setAttrib att
  miss {q : PgPtr} : pt'.get q ≠ pt.get q → ∃ v r, v.toNat < 2 ^ 41 ∧ R v ∧
    pt.lookupFrom v s (entryPtr v s) = some (q, r) ∧ sp.isMappable (firstAddress lo r v) = true

namespace Painted

theorem empty (h : ∀ v, ¬R v) : Painted sp att lo s R pt pt where
  repaints := .refl
  hit _ hv := absurd hv (h _)
  miss hne := absurd rfl hne

theorem congr (h : Painted sp att lo s R pt pt') (hR : ∀ v, R v ↔ R' v) :
    Painted sp att lo s R' pt pt' where
  repaints := h.repaints
  hit hlt hv := h.hit hlt ((hR _).mpr hv)
  miss hne := by
    obtain ⟨v, r, hlt, hv, hrest⟩ := h.miss hne
    exact ⟨v, r, hlt, (hR v).mp hv, hrest⟩

/-- One region after the other. -/
theorem append (h : Painted sp att lo s R pt pt₁) (h' : Painted sp att lo s R' pt₁ pt') :
    Painted sp att lo s (fun v => R v ∨ R' v) pt pt' where
  repaints := h.repaints.trans h'.repaints
  hit {v p r} hlt hv hlook hmap := by
    rcases hv with hv | hv
    · have hp := h.hit hlt hv hlook hmap
      rcases h'.repaints p with heq | heq
      · rw [heq, hp]
      · rw [heq, hp, Pgent.setAttrib_setAttrib]
    · rw [← h.repaints.lookupFrom_eq] at hlook
      rw [h'.hit hlt hv hlook hmap]
      rcases h.repaints p with heq | heq
      · rw [heq]
      · rw [heq, Pgent.setAttrib_setAttrib]
  miss {q} hne := by
    by_cases hq : pt₁.get q = pt.get q
    · rw [← hq] at hne
      obtain ⟨v, r, hlt, hv, hlook, hmap⟩ := h'.miss hne
      rw [h.repaints.lookupFrom_eq] at hlook
      exact ⟨v, r, hlt, .inr hv, hlook, hmap⟩
    · obtain ⟨v, r, hlt, hv, hlook, hmap⟩ := h.miss hq
      exact ⟨v, r, hlt, .inl hv, hlook, hmap⟩

/-- The table below a split entry is that of the page of the entry. -/
theorem above (hs : s < 7) (h : Painted sp att lo s R pt pt')
    (hsplit : ∀ v, R v → (pt.get (entryPtr v (s + 1))).Split (s + 1)) :
    Painted sp att lo (s + 1) R pt pt' where
  repaints := h.repaints
  hit hlt hv hlook := by
    rw [lookupFrom_of_split hs (hsplit _ hv)] at hlook
    exact h.hit hlt hv hlook
  miss hne := by
    obtain ⟨v, r, hlt, hv, hlook, hmap⟩ := h.miss hne
    exact ⟨v, r, hlt, hv, by rwa [lookupFrom_of_split hs (hsplit v hv)], hmap⟩

/-- An entry with no table below that has no mappable page. -/
theorem skip (hs : s ≤ 7) (ha : AtPage lo s a)
    (h : (pt.get (entryPtr a s)).valid s = false ∨ (pt.get (entryPtr a s)).subtree s = false ∧
      sp.isMappable a = false) : Painted sp att lo s (SamePage s a) pt pt where
  repaints := .refl
  hit {v p r} hlt hv hlook hmap := by
    have hentry := entryPtr_congr hv le_rfl hs
    rcases h with hinv | ⟨hsub, hno⟩
    · rw [lookupFrom_of_not_valid (by rwa [hentry])] at hlook
      cases hlook
    · cases hval : (pt.get (entryPtr a s)).valid s with
      | false =>
        rw [lookupFrom_of_not_valid (by rwa [hentry])] at hlook
        cases hlook
      | true =>
        rw [lookupFrom_of_leaf (by rwa [hentry]) (by rwa [hentry])] at hlook
        cases hlook
        rw [ha.firstAddress_eq hlt hv, hno] at hmap
        cases hmap
  miss hne := absurd rfl hne

/-- A mappable page. -/
theorem leaf (hs : s ≤ 7) (ha : AtPage lo s a) (hval : (pt.get (entryPtr a s)).valid s = true)
    (hsub : (pt.get (entryPtr a s)).subtree s = false) (hmap : sp.isMappable a = true) :
    Painted sp att lo s (SamePage s a) pt
      (pt.set (entryPtr a s) ((pt.get (entryPtr a s)).setAttrib att)) where
  repaints q := by
    by_cases hq : q = entryPtr a s
    · subst hq
      exact .inr PgOp.get_set_self
    · exact .inl (PgOp.get_set_of_ne hq)
  hit {v p r} hlt hv hlook hmap' := by
    have hentry := entryPtr_congr hv le_rfl hs
    rw [lookupFrom_of_leaf (by rwa [hentry]) (by rwa [hentry])] at hlook
    cases hlook
    rw [hentry]
    exact PgOp.get_set_self
  miss {q} hne := by
    by_cases hq : q = entryPtr a s
    · subst hq
      have hlt : a.toNat < 2 ^ 41 := Nat.lt_trans ha.lt (by decide)
      refine ⟨a, s, hlt, rfl, lookupFrom_of_leaf hval hsub, ?_⟩
      rwa [ha.firstAddress_eq hlt rfl]
    · exact absurd (PgOp.get_set_of_ne hq) hne

end Painted

/-! ## The pages that are visited -/

/-- The page is visited in a row of entries: from the first split one on, the walk stays in the
table below. -/
inductive Reached (pt : PageTable) : Nat → Word → Nat → Word → Prop
  | page {s n : Nat} {a v : Word} : ¬(pt.get (entryPtr a s)).Split s → SamePage s a v →
      Reached pt s a (n + 1) v
  | next {s n : Nat} {a v : Word} : ¬(pt.get (entryPtr a s)).Split s →
      Reached pt s (addPages s a 1) n v → Reached pt s a (n + 1) v
  | down {s n : Nat} {a v : Word} : (pt.get (entryPtr a (s + 1))).Split (s + 1) →
      Reached pt s a (pageTableSize s) v → Reached pt (s + 1) a (n + 1) v

namespace Reached

/-- The visited pages depend on the split entries only. -/
theorem congr (h : ∀ q s, (pt'.get q).Split s ↔ (pt.get q).Split s)
    (hv : Reached pt s a n v) : Reached pt' s a n v := by
  induction hv with
  | page hsplit hpage => exact .page (by rwa [h]) hpage
  | next hsplit _ ih => exact .next (by rwa [h]) ih
  | down hsplit _ ih => exact .down (by rwa [h]) ih

theorem iff_of_repaints (h : Repaints att pt pt') : Reached pt' s a n v ↔ Reached pt s a n v :=
  ⟨congr fun _ _ => h.split_iff.symm, congr fun _ _ => h.split_iff⟩

/-- An entry that is not split is visited, and those after it. -/
theorem succ_iff (hsplit : ¬(pt.get (entryPtr a s)).Split s) :
    Reached pt s a (n + 1) v ↔ SamePage s a v ∨ Reached pt s (addPages s a 1) n v := by
  constructor
  · intro h
    cases h with
    | page _ hpage => exact .inl hpage
    | next _ htail => exact .inr htail
    | down hs => exact absurd hs hsplit
  · rintro (hpage | htail)
    · exact .page hsplit hpage
    · exact .next hsplit htail

/-- The entries after a split one are not visited. -/
theorem down_iff (hsplit : (pt.get (entryPtr a (s + 1))).Split (s + 1)) :
    Reached pt (s + 1) a (n + 1) v ↔ Reached pt s a (pageTableSize s) v := by
  constructor
  · intro h
    cases h with
    | page hs => exact absurd hsplit hs
    | next hs => exact absurd hsplit hs
    | down _ h => exact h
  · exact .down hsplit

end Reached

/-! ## The pages that are left out -/

/-- The page comes before another one of its size. -/
def Before (k : Nat) (w v : Word) : Prop :=
  w.toNat % 2 ^ 41 / 2 ^ pageShift k < v.toNat % 2 ^ 41 / 2 ^ pageShift k

/-- The page is behind a split entry, of the row or of a table on the way down from it. -/
def Lost (pt : PageTable) (s : Nat) (a : Word) (n : Nat) (v : Word) : Prop :=
  ∃ k w, k ≤ s ∧ (∀ r, k < r → r ≤ s → (pt.get (entryPtr v r)).Split r) ∧
    (k = s → InRow s a n w) ∧ (k < s → SamePage (k + 1) v w) ∧ Before k w v ∧
    (pt.get (entryPtr w k)).Split k

/-- The pages of a row are numbered from its first one. -/
theorem Unmapper.Row.number (hs : s ≤ 7) (h : Row lo s a n) (hv : InRow s a n v) :
    ∃ k, k < n ∧ v.toNat % 2 ^ 41 / 2 ^ pageShift s =
      a.toNat % 2 ^ 41 / 2 ^ pageShift s + k := by
  obtain ⟨k, hk, hpage⟩ := hv
  have hfits := h.fits (Nat.ne_zero_of_lt hk)
  have hle : k * 2 ^ pageShift s ≤ (n - 1) * 2 ^ pageShift s :=
    Nat.mul_le_mul_right _ (Nat.le_sub_one_of_lt hk)
  refine ⟨k, hk, ?_⟩
  rw [hpage, div_addPages hs (by omega), Nat.mod_eq_of_lt (a := a.toNat) (by omega)]

theorem Unmapper.Row.not_before {w : Word} (hs : s ≤ 7) (h : Row lo s a n) (hv : SamePage s a v)
    (hw : InRow s a n w) : ¬Before s w v := by
  obtain ⟨k, -, hk⟩ := h.number hs hw
  rw [Before, hk, hv]
  omega

theorem Unmapper.Row.before (hs : s ≤ 7) (h : Row lo s a (n + 1)) (hv : InRow s (addPages s a 1) n v) :
    Before s a v := by
  obtain ⟨k, -, hk⟩ := h.number hs (inRow_succ.mpr (.inr hv))
  have hne : ¬SamePage s a v := fun hpage => h.disjoint hs hpage hv
  rw [SamePage] at hne
  rw [Before]
  omega

namespace Lost

/-- No page of the first entry is behind an entry of its row. -/
theorem of_first (hs : s ≤ 7) (h : Row lo s a n) (hv : SamePage s a v)
    (hlost : Lost pt s a n v) : ∃ k w, k < s ∧
      (∀ r, k < r → r ≤ s → (pt.get (entryPtr v r)).Split r) ∧ SamePage (k + 1) v w ∧
      Before k w v ∧ (pt.get (entryPtr w k)).Split k := by
  obtain ⟨k, w, hks, hway, hrow, hpage, hbefore, hsplit⟩ := hlost
  rcases Nat.lt_or_eq_of_le hks with hlt | rfl
  · exact ⟨k, w, hlt, hway, hpage hlt, hbefore, hsplit⟩
  · exact absurd hbefore (h.not_before hs hv (hrow rfl))

/-- The pages of an entry that is not split are not behind another one. -/
theorem not_page (hs : s ≤ 7) (h : Row lo s a n) (hv : SamePage s a v)
    (hsplit : ¬(pt.get (entryPtr a s)).Split s) : ¬Lost pt s a n v := by
  intro hlost
  obtain ⟨k, -, hks, hway, -⟩ := hlost.of_first hs h hv
  have hself := hway s hks le_rfl
  rw [entryPtr_congr hv le_rfl hs] at hself
  exact hsplit hself

/-- Nothing is behind an entry that is not split. -/
theorem next_iff (hs : s ≤ 7) (hsplit : ¬(pt.get (entryPtr a s)).Split s) :
    Lost pt s a (n + 1) v ↔ Lost pt s (addPages s a 1) n v := by
  constructor
  · rintro ⟨k, w, hks, hway, hrow, hpage, hbefore, hw⟩
    refine ⟨k, w, hks, hway, fun heq => ?_, hpage, hbefore, hw⟩
    subst heq
    rcases inRow_succ.mp (hrow rfl) with hfirst | htail
    · rw [entryPtr_congr hfirst le_rfl hs] at hw
      exact absurd hw hsplit
    · exact htail
  · rintro ⟨k, w, hks, hway, hrow, hpage, hbefore, hw⟩
    exact ⟨k, w, hks, hway, fun heq => inRow_succ.mpr (.inr (hrow heq)), hpage, hbefore, hw⟩

/-- The pages of the first entry, when it is split. -/
theorem down_iff (hlo : lo < 2 ^ 12) (hs : s < 7) (h : Row lo (s + 1) a (n + 1))
    (hv : SamePage (s + 1) a v) (hsplit : (pt.get (entryPtr a (s + 1))).Split (s + 1)) :
    Lost pt (s + 1) a (n + 1) v ↔ Lost pt s a (pageTableSize s) v := by
  have ha : AtPage lo (s + 1) a := by simpa [addPages_zero] using h.page (Nat.succ_pos n)
  constructor
  · intro hlost
    obtain ⟨k, w, hks, hway, hpage, hbefore, hw⟩ := hlost.of_first hs h hv
    refine ⟨k, w, Nat.le_of_lt_succ hks, fun r hr hrs => hway r hr (Nat.le_succ_of_le hrs),
      fun heq => ?_, fun _ => hpage, hbefore, hw⟩
    subst heq
    rw [ha.inRow hlo hs]
    exact hpage.trans hv
  · rintro ⟨k, w, hks, hway, hrow, hpage, hbefore, hw⟩
    refine ⟨k, w, Nat.le_succ_of_le hks, fun r hr hrs => ?_, fun heq => ?_, fun _ => ?_, hbefore,
      hw⟩
    · rcases Nat.lt_or_eq_of_le hrs with hlt | rfl
      · exact hway r hr (Nat.le_of_lt_succ hlt)
      · rwa [entryPtr_congr hv le_rfl hs]
    · exact absurd heq (Nat.ne_of_lt (Nat.lt_succ_of_le hks))
    · rcases Nat.lt_or_eq_of_le hks with hlt | rfl
      · exact hpage hlt
      · have hpage := hrow rfl
        rw [ha.inRow hlo hs] at hpage
        exact hpage.trans (samePage_symm hv)

/-- The pages after a split entry. -/
theorem of_split (hs : s ≤ 7) (h : Row lo s a (n + 1)) (hsplit : (pt.get (entryPtr a s)).Split s)
    (hv : InRow s (addPages s a 1) n v) : Lost pt s a (n + 1) v :=
  ⟨s, a, le_rfl, fun _ hr hrs => absurd hr (Nat.not_lt.mpr hrs),
    fun _ => inRow_succ.mpr (.inl rfl), fun hss => absurd hss (Nat.lt_irrefl s), h.before hs hv,
    hsplit⟩

end Lost

/-- The pages of a row, where those of a row that starts with a split entry are known. -/
theorem reached_iff_of_down (hs : s ≤ 7)
    (hdown : ∀ {a n}, Row lo s a (n + 1) → (pt.get (entryPtr a s)).Split s →
      (Reached pt s a (n + 1) v ↔ InRow s a (n + 1) v ∧ ¬Lost pt s a (n + 1) v))
    (h : Row lo s a n) : Reached pt s a n v ↔ InRow s a n v ∧ ¬Lost pt s a n v := by
  induction n generalizing a with
  | zero =>
    constructor
    · intro hv
      cases hv
    · rintro ⟨⟨k, hk, -⟩, -⟩
      cases hk
  | succ n ih =>
    by_cases hsplit : (pt.get (entryPtr a s)).Split s
    · exact hdown h hsplit
    · have htail := ih (h.tail hs)
      rw [Reached.succ_iff hsplit, htail, inRow_succ, Lost.next_iff hs hsplit]
      by_cases hpage : SamePage s a v
      · have hfree := Lost.not_page hs h hpage hsplit
        rw [Lost.next_iff hs hsplit] at hfree
        simp only [hpage, hfree, true_or, not_false_iff, and_self]
      · simp only [hpage, false_or]

/-- The pages of a row that are visited are those that are not behind a split entry. -/
theorem reached_iff (hlo : lo < 2 ^ 12) (hs : s ≤ 7) (h : Row lo s a n) :
    Reached pt s a n v ↔ InRow s a n v ∧ ¬Lost pt s a n v := by
  induction s generalizing a n with
  | zero =>
    refine reached_iff_of_down hs (fun _ hsplit => ?_) h
    have hsub := hsplit.2
    rw [subtree_zero] at hsub
    cases hsub
  | succ s ih =>
    refine reached_iff_of_down hs (fun {a n} h hsplit => ?_) h
    have ha : AtPage lo (s + 1) a := by simpa [addPages_zero] using h.page (Nat.succ_pos n)
    have hbelow := ih (Nat.le_of_succ_le hs) (ha.row hlo hs)
    rw [Reached.down_iff hsplit, hbelow, ha.inRow hlo hs, inRow_succ]
    by_cases hpage : SamePage (s + 1) a v
    · rw [Lost.down_iff hlo hs h hpage hsplit]
      simp only [hpage, true_or]
    · constructor
      · rintro ⟨hpage', -⟩
        exact absurd hpage' hpage
      · rintro ⟨hv, hlost⟩
        exact absurd (Lost.of_split hs h hsplit (hv.resolve_left hpage)) hlost

/-! ## The loop -/

namespace AttribWalk

variable {w w' : AttribWalk} {code : Option Word} {m : Bool}

/-- The attribute that a call sets; `none` for a flush of the caches and an invalid attribute. -/
def cachingAttrib (attrib : Word) : Option (BitVec 3) :=
  match newAttrib attrib true with
  | some (att, true) => some att
  | _ => none

theorem newAttrib_of_caching (h : cachingAttrib attrib = some att) :
    newAttrib attrib true = some (att, true) := by
  rw [cachingAttrib] at h
  split at h
  · rename_i heq
    rw [heq, Option.some_inj.mp h]
  · cases h

theorem newAttrib_of_not_caching (h : cachingAttrib attrib = none) :
    newAttrib attrib m = none ∨ ∃ att, newAttrib attrib m = some (att, false) := by
  simp only [cachingAttrib, newAttrib] at h ⊢
  split_ifs at h ⊢ <;> simp at h ⊢

/-- The walk ends. -/
def Ends (sp : Space) (attrib : Word) (pgsize : Nat) (w : AttribWalk) (pt : PageTable)
    (code : Option Word) (pt' : PageTable) : Prop :=
  ∃ n, ∀ fuel, attribLoop sp attrib pgsize (n + fuel) w pt = some (code, pt')

theorem ends_of_zero (h : w.num = 0) : Ends sp attrib pgsize w pt none pt := by
  refine ⟨1, fun fuel => ?_⟩
  rw [Nat.add_comm, attribLoop, if_pos h]

theorem Ends.of_go (h : Ends sp attrib pgsize w' pt₁ code pt') (hnum : w.num ≠ 0)
    (hstep : attribStep sp attrib pgsize w pt = .go w' pt₁) :
    Ends sp attrib pgsize w pt code pt' := by
  obtain ⟨n, hn⟩ := h
  refine ⟨n + 1, fun fuel => ?_⟩
  rw [Nat.add_right_comm, attribLoop, if_neg hnum, hstep]
  exact hn fuel

theorem ends_of_stop (h : attribStep sp attrib pgsize w pt = .stop) :
    Ends sp attrib pgsize w pt none pt := by
  refine ⟨1, fun fuel => ?_⟩
  rw [Nat.add_comm, attribLoop, h]
  split <;> rfl

theorem ends_of_error {c : Word} (hnum : w.num ≠ 0)
    (h : attribStep sp attrib pgsize w pt = .error c) :
    Ends sp attrib pgsize w pt (some c) pt := by
  refine ⟨1, fun fuel => ?_⟩
  rw [Nat.add_comm, attribLoop, if_neg hnum, h]

theorem attribStep_of_le (hle : w.size ≤ pgsize) (huser : Space.isUserArea w.vaddr = true) :
    attribStep sp attrib pgsize w pt =
      if (pt.get w.pg).valid w.size then
        if (pt.get w.pg).subtree w.size then .go w.enterSubtree pt
        else attribLeaf sp attrib w pt
      else .go w.nextEntry pt := by
  have hnot : ¬pgsize < w.size := Nat.not_lt.mpr hle
  simp only [attribStep, huser, hnot, Bool.not_true, Bool.false_eq_true, if_false]
  cases (pt.get w.pg).valid w.size with
  | false => rfl
  | true => rfl

/-- What the walk does to a region: a caching attribute is set, and nothing is changed for others. -/
structure Outcome (sp : Space) (attrib : Word) (lo s : Nat) (R : Word → Prop) (code : Option Word)
    (pt pt' : PageTable) : Prop where
  caching {att : BitVec 3} : cachingAttrib attrib = some att →
    code = none ∧ Painted sp att lo s R pt pt'
  other : cachingAttrib attrib = none → pt' = pt

/-- An entry with no table below: the walk goes on to the next one, or the attribute is invalid. -/
theorem attribStep_of_not_split (hs : s ≤ 7) (hle : s ≤ pgsize) (ha : AtPage lo s a)
    (huser : Space.isUserArea a = true) (hsize : w.size = s) (hpg : w.pg = entryPtr a s)
    (hv : w.vaddr = a) (hmod : w.modify = true ∨ cachingAttrib attrib = none)
    (hsplit : ¬(pt.get (entryPtr a s)).Split s) :
    (∃ m pt₁, attribStep sp attrib pgsize w pt = .go { w with modify := m }.nextEntry pt₁ ∧
      (m = true ∨ cachingAttrib attrib = none) ∧
      Outcome sp attrib lo s (SamePage s a) none pt pt₁) ∨
    attribStep sp attrib pgsize w pt = .error einvalidParam ∧ cachingAttrib attrib = none := by
  obtain ⟨size, pg, vaddr, num, modify, rPg, rNum⟩ := w
  dsimp only at hsize hpg hv hmod
  subst hsize hpg hv
  rw [attribStep_of_le hle huser]
  dsimp only
  by_cases hval : (pt.get (entryPtr vaddr size)).valid size = true
  · have hsub : (pt.get (entryPtr vaddr size)).subtree size = false :=
      Bool.eq_false_iff.mpr fun hsub => hsplit ⟨hval, hsub⟩
    rw [if_pos hval, hsub, if_neg Bool.false_ne_true, attribLeaf]
    dsimp only
    by_cases hmap : sp.isMappable vaddr = true
    · rw [if_pos hmap]
      cases hc : cachingAttrib attrib with
      | some att =>
        have htrue : modify = true := hmod.resolve_right (by rw [hc]; exact Option.some_ne_none _)
        rw [htrue, newAttrib_of_caching hc]
        refine .inl ⟨true, _, rfl, .inl rfl, fun h => ⟨rfl, ?_⟩, fun h => ?_⟩
        · cases hc.symm.trans h
          exact .leaf hs ha hval hsub hmap
        · cases hc.symm.trans h
      | none =>
        rcases newAttrib_of_not_caching (m := modify) hc with hinv | ⟨att, hatt⟩
        · rw [hinv]
          exact .inr ⟨rfl, rfl⟩
        · rw [hatt]
          refine .inl ⟨false, pt, rfl, .inr rfl, fun h => ?_, fun _ => rfl⟩
          cases hc.symm.trans h
    · rw [if_neg hmap]
      exact .inl ⟨modify, pt, rfl, hmod, fun _ => ⟨rfl, .skip hs ha
        (.inr ⟨hsub, Bool.eq_false_iff.mpr hmap⟩)⟩, fun _ => rfl⟩
  · rw [if_neg hval]
    exact .inl ⟨modify, pt, rfl, hmod, fun _ => ⟨rfl, .skip hs ha
      (.inl (Bool.eq_false_iff.mpr hval))⟩, fun _ => rfl⟩

/-- A row after an entry that is not split. -/
theorem Outcome.next (hsplit : ¬(pt.get (entryPtr a s)).Split s)
    (h : Outcome sp attrib lo s (SamePage s a) none pt pt₁)
    (h' : Outcome sp attrib lo s (Reached pt₁ s (addPages s a 1) n) code pt₁ pt') :
    Outcome sp attrib lo s (Reached pt s a (n + 1)) code pt pt' where
  caching hc := by
    obtain ⟨-, hfirst⟩ := h.caching hc
    obtain ⟨hcode, htail⟩ := h'.caching hc
    refine ⟨hcode, (hfirst.append htail).congr fun v => ?_⟩
    rw [Reached.succ_iff hsplit, Reached.iff_of_repaints hfirst.repaints]
  other hc := (h'.other hc).trans (h.other hc)

/-- A row whose first entry is split. -/
theorem Outcome.down (hlo : lo < 2 ^ 12) (hs : s < 7) (ha : AtPage lo (s + 1) a)
    (hsplit : (pt.get (entryPtr a (s + 1))).Split (s + 1))
    (h : Outcome sp attrib lo s (Reached pt s a (pageTableSize s)) code pt pt') :
    Outcome sp attrib lo (s + 1) (Reached pt (s + 1) a (n + 1)) code pt pt' where
  caching hc := by
    obtain ⟨hcode, hdone⟩ := h.caching hc
    refine ⟨hcode, (hdone.above hs fun v hv => ?_).congr fun v => (Reached.down_iff hsplit).symm⟩
    have hpage := ((reached_iff hlo (Nat.le_of_lt hs) (ha.row hlo hs)).mp hv).1
    rw [ha.inRow hlo hs] at hpage
    rwa [entryPtr_congr hpage le_rfl hs]
  other := h.other

/-- The walk ends in every row of a size, and visits what it reaches. -/
def RowEnds (sp : Space) (attrib : Word) (pgsize lo s : Nat) : Prop :=
  ∀ {w : AttribWalk} {pt : PageTable} {a : Word} {n : Nat}, w.size = s →
    (n ≠ 0 → w.pg = entryPtr a s) → w.vaddr = a →
    (w.modify = true ∨ cachingAttrib attrib = none) → Row lo s a n → n ≤ w.num →
    (n = w.num ∨ Space.isUserArea (addPages s a n) = false) →
    ∃ code pt', Ends sp attrib pgsize w pt code pt' ∧
      Outcome sp attrib lo s (Reached pt s a n) code pt pt'

/-- The rows of a size, where those of the size below are known. -/
theorem rowEnds_of_below (hlo : lo < 2 ^ 12) (hs : s ≤ 7) (hle : s ≤ pgsize)
    (hbelow : ∀ s', s = s' + 1 → RowEnds sp attrib pgsize lo s') :
    RowEnds sp attrib pgsize lo s := by
  intro w pt a n hsize hpg hv hmod hrow hnum hend
  induction n generalizing w pt a with
  | zero =>
    refine ⟨none, pt, ?_, fun _ => ⟨rfl, .empty fun v hv => ?_⟩, fun _ => rfl⟩
    · rcases hend with hzero | hout
      · exact ends_of_zero hzero.symm
      · rw [addPages_zero, ← hv] at hout
        refine ends_of_stop ?_
        simp only [attribStep, hout, Bool.not_false, if_true]
    · cases hv
  | succ n ih =>
    have ha : AtPage lo s a := by simpa [addPages_zero] using hrow.page (Nat.succ_pos n)
    have huser : Space.isUserArea a = true := (ha.inUserArea hlo hs).isUserArea hs
    have hne : w.num ≠ 0 := Nat.ne_zero_of_lt hnum
    have hpg := hpg (Nat.succ_ne_zero n)
    by_cases hsplit : (pt.get (entryPtr a s)).Split s
    · -- into the table below, where the walk ends
      obtain ⟨s', rfl⟩ : ∃ s', s = s' + 1 := by
        refine Nat.exists_eq_succ_of_ne_zero fun hzero => ?_
        subst hzero
        have hsub := hsplit.2
        rw [subtree_zero] at hsub
        cases hsub
      have hs' : s' < 7 := hs
      have hsplit' := hsplit
      rw [← hpg, ← hsize] at hsplit'
      have hstep : attribStep sp attrib pgsize w pt = .go w.enterSubtree pt := by
        rw [attribStep_of_le (by rwa [hsize]) (by rwa [hv]), if_pos hsplit'.1, if_pos hsplit'.2]
      have hsize' : w.enterSubtree.size = s' := by rw [enterSubtree, hsize, Nat.add_sub_cancel]
      have hnum' : w.enterSubtree.num = pageTableSize s' := by
        rw [enterSubtree, hsize, Nat.add_sub_cancel]
      have hpg' : w.enterSubtree.pg = entryPtr a s' := by
        rw [ha.entry hlo hs', ← hpg, enterSubtree, hsize]
      obtain ⟨code, pt', hends, hdone⟩ := hbelow s' rfl hsize' (fun _ => hpg') hv hmod
        (ha.row hlo hs') (Nat.le_of_eq hnum'.symm) (.inl hnum'.symm)
      exact ⟨code, pt', hends.of_go hne hstep, hdone.down hlo hs' ha hsplit⟩
    · obtain ⟨m, pt₁, hstep, hmod₁, hfirst⟩ | ⟨hstep, hc⟩ :=
        attribStep_of_not_split hs hle ha huser hsize hpg hv hmod hsplit
      · -- on to the next entry
        have hpg' : n ≠ 0 → w.pg.next w.size 1 = entryPtr (addPages s a 1) s := by
          intro hn
          rw [hsize, hpg, hrow.entry (k := 1) (Nat.succ_lt_succ (Nat.pos_of_ne_zero hn))]
        have hv' : w.vaddr + pageSizeBytes w.size = addPages s a 1 := by
          rw [hsize, hv, addPages_one]
        have hend' : n = w.num - 1 ∨
            Space.isUserArea (addPages s (addPages s a 1) n) = false := by
          rw [addPages_succ]
          exact hend.imp_left fun h => by omega
        obtain ⟨code, pt', hends, hdone⟩ := ih (w := { w with modify := m }.nextEntry)
          hsize hpg' hv' hmod₁ (hrow.tail hs) (Nat.le_sub_one_of_lt hnum) hend'
        exact ⟨code, pt', hends.of_go hne hstep, hfirst.next hsplit hdone⟩
      · refine ⟨_, pt, ends_of_error hne hstep, fun h => ?_, fun _ => rfl⟩
        cases hc.symm.trans h

theorem rowEnds (hlo : lo < 2 ^ 12) (hs : s ≤ 7) (hle : s ≤ pgsize) :
    RowEnds sp attrib pgsize lo s := by
  induction s with
  | zero =>
    refine rowEnds_of_below hlo hs hle fun s' h => ?_
    cases h
  | succ s ih =>
    refine rowEnds_of_below hlo hs hle fun s' h => ?_
    cases h
    exact ih (Nat.le_of_succ_le hs) (Nat.le_of_succ_le hle)

end AttribWalk

/-! ## The flexpage -/

/-- The address is one of the flexpage, in a mapped mappable page with this entry and size. -/
structure MappedIn (sp : Space) (f : Fpage) (pt : PageTable) (v : Word) (p : PgPtr) (r : Nat) :
    Prop where
  includes : f.Includes v
  lookup : pt.lookupMapping v = some (p, r)
  mappable : sp.isMappable (firstAddress f.lowBits r v) = true

/-- The attribute was set on the mapped mappable pages of the flexpage and on no other page. -/
structure AttribApplied (sp : Space) (f : Fpage) (att : BitVec 3) (pt pt' : PageTable) : Prop where
  inside {v : Word} {p : PgPtr} {r : Nat} : MappedIn sp f pt v p r →
    pt'.view v = some (p, r, (pt.get p).setAttrib att)
  outside {v : Word} : v.toNat < 2 ^ 41 → (∀ p r, ¬MappedIn sp f pt v p r) → pt'.view v = pt.view v

/-- An earlier entry of the flexpage, in one of the tables on the way to the page, has a table of
smaller pages. -/
def BehindSplit (pt : PageTable) (f : Fpage) (r : Nat) (v : Word) : Prop :=
  ∃ s w, r ≤ s ∧ s ≤ walkPgsize f ∧ f.Includes w ∧ (s < walkPgsize f → SamePage (s + 1) v w) ∧
    w.toNat / 2 ^ pageShift s < v.toNat / 2 ^ pageShift s ∧ (pt.get (entryPtr w s)).Split s

namespace MappedIn

variable {w : Word}

theorem lt (h : MappedIn sp f pt v p r) : v.toNat < 2 ^ 40 := by
  obtain ⟨hr, -⟩ := walks_of_lookup h.lookup
  have hlo := f.lowBits_lt
  have huser := h.mappable
  rw [Space.isMappable, Bool.and_assoc, Bool.and_eq_true] at huser
  have hlt := Space.isUserArea_iff.mp huser.1
  have hv := v.isLt
  rw [firstAddress, BitVec.toNat_ofNat] at hlt
  interval_cases r
  all_goals
    simp only [pageShift, hwPgshifts, List.getD_cons_zero, List.getD_cons_succ] at hlt
    omega

theorem lt_tables (h : MappedIn sp f pt v p r) : v.toNat < 2 ^ 41 := Nat.lt_trans h.lt (by decide)

end MappedIn

theorem BehindSplit.congr {w : Word} (hv : v.toNat < 2 ^ 41) (hw : w.toNat < 2 ^ 41)
    (hpage : SamePage r v w) (h : BehindSplit pt f r v) : BehindSplit pt f r w := by
  obtain ⟨s, x, hrs, hs, hx, htable, hbefore, hsplit⟩ := h
  have h7 : s ≤ 7 := hs.trans walkPgsize_le
  have hsame := hpage.mono hrs h7
  refine ⟨s, x, hrs, hs, hx, fun hlt => ?_, ?_, hsplit⟩
  · have habove := hpage.mono (Nat.le_succ_of_le hrs) (Nat.lt_of_lt_of_le hlt walkPgsize_le)
    exact (htable hlt).trans (samePage_symm habove)
  · rw [SamePage, Nat.mod_eq_of_lt hv, Nat.mod_eq_of_lt hw] at hsame
    rwa [hsame]

section Visited

variable (hR : ∀ {v : Word}, v.toNat < 2 ^ 41 →
    (InRow (walkPgsize f) a n v ↔ f.Includes v ∧ v.toNat < 2 ^ 40))
  (hw : ∀ {v : Word}, v.toNat < 2 ^ 40 → f.Includes v → pt.Walks v (walkPgsize f))
include hR hw

/-- The lost pages of the row are those behind a split entry of the flexpage. -/
theorem MappedIn.lost_iff (h : MappedIn sp f pt v p r) :
    Lost pt (walkPgsize f) a n v ↔ BehindSplit pt f r v := by
  have hlt := h.lt
  have hlt' := h.lt_tables
  have hs : walkPgsize f ≤ 7 := walkPgsize_le
  obtain ⟨hr, -, hwr, hleaf⟩ := walks_of_lookup h.lookup
  have hvR : InRow (walkPgsize f) a n v := (hR hlt').mpr ⟨h.includes, hlt⟩
  constructor
  · rintro ⟨k, w, hks, hway, hrow, htable, hbefore, hsplit⟩
    have hrk : r ≤ k := by
      refine Nat.le_of_not_lt fun hkr => ?_
      rcases Nat.lt_or_ge (walkPgsize f) r with hsr | hrs
      · exact hleaf (hw hlt h.includes r hsr hr)
      · exact hleaf (hway r hkr hrs)
    obtain ⟨w', hw', hpage, -⟩ := exists_lt (w := w) paged_page (hks.trans hs) (rfl : SamePage k w w)
    rw [← entryPtr_congr hpage le_rfl (hks.trans hs)] at hsplit
    rw [Before, Nat.mod_eq_of_lt hlt', ← hpage, Nat.mod_eq_of_lt hw'] at hbefore
    have htable' : k < walkPgsize f → SamePage (k + 1) v w' := fun hlt =>
      (hpage.mono (Nat.le_succ k) (Nat.lt_of_lt_of_le hlt hs)).trans (htable hlt)
    have hrow' : InRow (walkPgsize f) a n w' := by
      rcases Nat.lt_or_eq_of_le hks with hlt | rfl
      · exact paged_inRow hvR ((htable' hlt).mono hlt hs)
      · exact paged_inRow (hrow rfl) hpage
    exact ⟨k, w', hrk, hks, ((hR hw').mp hrow').1, htable', hbefore, hsplit⟩
  · rintro ⟨k, w, hrk, hks, hincl, htable, hbefore, hsplit⟩
    have hwv : w.toNat < v.toNat := Nat.lt_of_div_lt_div hbefore
    refine ⟨k, w, hks, fun t ht hts => hwr t (Nat.lt_of_le_of_lt hrk ht) (hts.trans hs),
      fun _ => (hR (Nat.lt_trans hwv hlt')).mpr ⟨hincl, Nat.lt_trans hwv hlt⟩, htable, ?_, hsplit⟩
    rwa [Before, Nat.mod_eq_of_lt hlt', Nat.mod_eq_of_lt (Nat.lt_trans hwv hlt')]

/-- Pages behind a split entry do not get the attribute. -/
theorem Painted.applied_iff (hrow : Row f.lowBits (walkPgsize f) a n)
    (h : Painted sp att f.lowBits (walkPgsize f) (Reached pt (walkPgsize f) a n) pt pt') :
    AttribApplied sp f att pt pt' ↔ ∀ v p r, MappedIn sp f pt v p r → BehindSplit pt f r v →
      (pt.get p).attributes = att := by
  have hlo := f.lowBits_lt
  have hs : walkPgsize f ≤ 7 := walkPgsize_le
  have hreached : ∀ {v}, Reached pt (walkPgsize f) a n v ↔ _ := reached_iff hlo hs hrow
  have hlookup : ∀ v, pt'.lookupMapping v = pt.lookupMapping v :=
    fun v => h.repaints.lookupFrom_eq _ _
  -- what has changed is a page of the flexpage that is not behind a split entry
  have hchanged : ∀ {v p r}, v.toNat < 2 ^ 41 → pt.lookupMapping v = some (p, r) →
      pt'.get p ≠ pt.get p → MappedIn sp f pt v p r ∧ ¬BehindSplit pt f r v := by
    intro v p r hv hlook hne
    obtain ⟨x, t, hx, hvisit, hfound, hmap⟩ := h.miss hne
    obtain ⟨hxrow, hfree⟩ := hreached.mp hvisit
    obtain ⟨hincl, hx40⟩ := (hR hx).mp hxrow
    rw [← lookupMapping_eq (hw hx40 hincl) hs] at hfound
    have hmapped : MappedIn sp f pt x p t := ⟨hincl, hfound, hmap⟩
    obtain ⟨rfl, hpage⟩ := lookup_inj hfound hlook
    have hts : t ≤ walkPgsize f := by
      rw [lookupMapping_eq (hw hx40 hincl) hs] at hfound
      exact (lookupFrom_some hs hfound).2
    have hvrow := paged_inRow hxrow (hpage.mono hts hs)
    rw [hmapped.lost_iff hR hw] at hfree
    refine ⟨⟨((hR hv).mp hvrow).1, hlook, ?_⟩,
      fun hbehind => hfree (hbehind.congr hv hx (samePage_symm hpage))⟩
    rwa [← firstAddress_congr hx hv hpage]
  constructor
  · intro happ v p r hmapped hbehind
    have hsame : pt'.get p = pt.get p := by
      by_contra hne
      exact (hchanged hmapped.lt_tables hmapped.lookup hne).2 hbehind
    have hview := happ.inside hmapped
    rw [view, hlookup, hmapped.lookup, Option.map_some, hsame] at hview
    have hget : pt.get p = (pt.get p).setAttrib att :=
      congrArg (fun o => o.2.2) (Option.some_inj.mp hview)
    rw [hget, Pgent.attributes_setAttrib]
  · intro hcond
    refine ⟨fun {v p r} hmapped => ?_, fun {v} hv hnot => ?_⟩
    · have hget : pt'.get p = (pt.get p).setAttrib att := by
        by_cases hbehind : BehindSplit pt f r v
        · have hatt := Pgent.setAttrib_of_eq (hcond v p r hmapped hbehind)
          rcases h.repaints p with heq | heq
          · rw [heq, hatt]
          · exact heq
        · have hvrow := (hR hmapped.lt_tables).mpr ⟨hmapped.includes, hmapped.lt⟩
          rw [← hmapped.lost_iff hR hw] at hbehind
          have hfound := hmapped.lookup
          rw [lookupMapping_eq (hw hmapped.lt hmapped.includes) hs] at hfound
          exact h.hit hmapped.lt_tables (hreached.mpr ⟨hvrow, hbehind⟩) hfound hmapped.mappable
      rw [view, hlookup, hmapped.lookup, Option.map_some, hget]
    · rw [view, view, hlookup]
      cases hlook : pt.lookupMapping v with
      | none => rfl
      | some x =>
        obtain ⟨p, r⟩ := x
        have hsame : pt'.get p = pt.get p := by
          by_contra hne
          exact hnot p r (hchanged hv hlook hne).1
        rw [Option.map_some, Option.map_some, hsame]

end Visited

/-- Where no page is visited nothing is to be done. -/
theorem applied_iff_of_none (h : ∀ v p r, ¬MappedIn sp f pt v p r) :
    AttribApplied sp f att pt pt ↔ ∀ v p r, MappedIn sp f pt v p r → BehindSplit pt f r v →
      (pt.get p).attributes = att :=
  ⟨fun _ v p r hv => absurd hv (h v p r), fun _ => ⟨fun hv => absurd hv (h _ _ _), fun _ _ => rfl⟩⟩

namespace AttribWalk

section Start

variable {w : AttribWalk} {code : Option Word} {t : Nat}

/-- The walk goes down as long as the entries for its address are split. -/
theorem Ends.of_down (ht : pgsize ≤ t) (huser : Space.isUserArea a = true) (hnum : w.num ≠ 0)
    {k : Nat} (h7 : t + k ≤ 7) (hs : w.size = t + k) (hpg : w.pg = entryPtr a (t + k))
    (hv : w.vaddr = a)
    (hw : ∀ r, t < r → r ≤ t + k → (pt.get (entryPtr a r)).Split r)
    (h : Ends sp attrib pgsize { w with size := t, pg := entryPtr a t } pt code pt') :
    Ends sp attrib pgsize w pt code pt' := by
  induction k generalizing w with
  | zero =>
    have heq : { w with size := t, pg := entryPtr a t } = w := by
      cases w
      simp_all
    rwa [heq] at h
  | succ k ih =>
    obtain ⟨hval, hsub⟩ := hw (t + (k + 1)) (by omega) le_rfl
    have hstep : attribStep sp attrib pgsize w pt = .go w.descend pt := by
      have hlt : pgsize < w.size := by omega
      rw [← hpg, ← hs] at hval hsub
      simp only [attribStep, hv, huser, hlt, hval, hsub, Bool.not_true, Bool.false_eq_true,
        if_false, if_true]
    have hdown : w.descend.pg = entryPtr a (t + k) := by
      have hdown := down_entryPtr a (show t + k < 7 by omega)
      rw [descend, hs, hv, hpg]
      exact hdown
    have hsize : w.descend.size = t + k := by
      rw [descend, hs]
      rfl
    have hends := ih (w := w.descend) hnum (by omega) hsize hdown hv
      (fun r hr hle => hw r hr (by omega)) h
    exact hends.of_go hnum hstep

/-- The entries for the first address are followed down to a size. -/
theorem ends_start (num : Nat) (hp : pgsize ≤ t) (h7 : t ≤ 7)
    (huser : Space.isUserArea (f.addressWrapped f.getSizeLog2) = true)
    (hw : pt.Walks (f.addressWrapped f.getSizeLog2) t)
    (h : Ends sp attrib pgsize { start f num pgsize with
      size := t, pg := entryPtr (f.addressWrapped f.getSizeLog2) t } pt code pt') :
    Ends sp attrib pgsize (start f num pgsize) pt code pt' := by
  obtain ⟨k, hk⟩ := Nat.exists_eq_add_of_le h7
  have hnum : (start f num pgsize).num ≠ 0 := (Nat.two_pow_pos _).ne'
  have hpg : (start f num pgsize).pg = entryPtr (f.addressWrapped f.getSizeLog2) (t + k) := by
    rw [← hk, ← rootPtr_eq]
    rfl
  exact .of_down hp huser hnum (Nat.le_of_eq hk.symm) hk hpg rfl
    (fun r hr hle => hw r hr (by omega)) h

/-- An entry that is too large ends the walk. -/
theorem ends_of_large (hlt : pgsize < w.size) (hnum : w.num ≠ 0)
    (huser : Space.isUserArea w.vaddr = true) (hsplit : ¬(pt.get w.pg).Split w.size) :
    ∃ code, Ends sp attrib pgsize w pt code pt ∧
      (code = none → (pt.get w.pg).valid w.size = false) := by
  cases hval : (pt.get w.pg).valid w.size with
  | false =>
    refine ⟨none, ends_of_stop ?_, fun _ => rfl⟩
    simp only [attribStep, huser, hlt, hval, Bool.not_true, Bool.false_eq_true, if_false, if_true,
      Bool.not_false]
  | true =>
    have hsub : (pt.get w.pg).subtree w.size = false :=
      Bool.eq_false_iff.mpr fun hsub => hsplit ⟨hval, hsub⟩
    refine ⟨some einvalidFpage, ends_of_error hnum ?_, fun h => by cases h⟩
    simp only [attribStep, huser, hlt, hval, hsub, Bool.not_true, Bool.false_eq_true, if_false,
      if_true]

end Start

/-- More iterations do not change the result. -/
theorem attribLoop_add {w : AttribWalk} {x : Option Word × PageTable} {fuel : Nat}
    (h : attribLoop sp attrib pgsize fuel w pt = some x) :
    attribLoop sp attrib pgsize (fuel + n) w pt = some x := by
  induction fuel generalizing w pt with
  | zero => cases h
  | succ fuel ih =>
    rw [Nat.add_right_comm, attribLoop]
    rw [attribLoop] at h
    by_cases hnum : w.num = 0
    · rwa [if_pos hnum] at h ⊢
    · rw [if_neg hnum] at h ⊢
      cases hstep : attribStep sp attrib pgsize w pt with
      | go w' pt' =>
        rw [hstep] at h
        exact ih h
      | stop => rwa [hstep] at h
      | error code => rwa [hstep] at h

theorem attribFpage_add {x : Option Word × PageTable} {fuel : Nat}
    (h : attribFpage sp f attrib fuel pt = some x) :
    attribFpage sp f attrib (fuel + n) pt = some x := by
  rw [attribFpage] at h ⊢
  split at h
  · rwa [if_pos ‹_›]
  · rw [if_neg ‹_›]
    exact attribLoop_add h

theorem attribFpage_of_ends {code : Option Word} (h12 : 12 ≤ f.getSizeLog2)
    (h : Ends sp attrib (walkPgsize f)
      (start f (min f.getSizeLog2 (pageShift (PgSize.sizeMax + 1))) (walkPgsize f)) pt code pt') :
    ∃ fuel, ∀ n, attribFpage sp f attrib (fuel + n) pt = some (code, pt') := by
  obtain ⟨fuel, hfuel⟩ := h
  have hsize : ¬f.getSizeLog2 < pageShift 0 := Nat.not_lt.mpr h12
  refine ⟨fuel, fun n => ?_⟩
  rw [attribFpage, if_neg hsize]
  exact hfuel n

end AttribWalk

open AttribWalk

/-- The mappings below an entry that is larger than the flexpage: none, or the entry is one. -/
theorem MappedIn.eq_of_large {t : Nat} (h12 : 12 ≤ f.getSizeLog2) (ha : f.Includes a)
    (ha' : a.toNat < 2 ^ 41) (ht : walkPgsize f < t) (h7 : t ≤ 7) (hw : pt.Walks a t)
    (hsplit : ¬(pt.get (entryPtr a t)).Split t) (h : MappedIn sp f pt v p r) :
    r = t ∧ (pt.get (entryPtr a t)).valid t = true := by
  have hpage := samePage_of_includes h12 (Nat.lt_of_lt_of_le ht h7) ha h.includes ha' h.lt_tables
  have hself := entryPtr_congr hpage ht h7
  have hwv := walks_of_includes h12 ha ha' (Nat.le_of_lt ht) hw h.includes h.lt_tables
  have hfound := h.lookup
  rw [lookupMapping_eq hwv h7] at hfound
  cases hval : (pt.get (entryPtr v t)).valid t with
  | false =>
    rw [lookupFrom_of_not_valid hval] at hfound
    cases hfound
  | true =>
    rw [hself] at hval
    have hsub := Bool.eq_false_iff.mpr fun hsub => hsplit ⟨hval, hsub⟩
    rw [lookupFrom_of_leaf (by rwa [hself]) (by rwa [hself])] at hfound
    cases hfound
    exact ⟨rfl, hval⟩

/-- The walk ends. An error leaves the table as it is, and without one a caching attribute is set
where it should be if the pages behind a split entry have it. -/
theorem attribFpage_ends (sp : Space) (pt : PageTable) (attrib : Word) (h12 : 12 ≤ f.getSizeLog2) :
    ∃ code pt', Ends sp attrib (walkPgsize f)
      (start f (min f.getSizeLog2 (pageShift (PgSize.sizeMax + 1))) (walkPgsize f)) pt code pt' ∧
      (code ≠ none → pt' = pt) ∧ ∀ att, cachingAttrib attrib = some att →
        ((code = none → AttribApplied sp f att pt pt') ↔
          ∀ v p r, MappedIn sp f pt v p r → BehindSplit pt f r v → (pt.get p).attributes = att) := by
  have hs : walkPgsize f ≤ 7 := walkPgsize_le
  have hlo := f.lowBits_lt
  have hincl := includes_first h12
  have htoNat := Fpage.toNat_addressWrapped h12
  rcases Nat.lt_or_ge f.first (2 ^ 40) with hfirst | hfirst
  · have hlt : (f.addressWrapped f.getSizeLog2).toNat < 2 ^ 40 := by
      obtain ⟨c, hc⟩ : 2 ^ 12 ∣ f.first :=
        (Nat.pow_dvd_pow 2 h12).trans (Fpage.first_aligned h12)
      omega
    have huser := Space.isUserArea_iff.mpr hlt
    have hlt41 := Nat.lt_trans hlt (show 2 ^ 40 < 2 ^ 41 by decide)
    rcases exists_walks pt (f.addressWrapped f.getSizeLog2) (Nat.add_sub_cancel' hs) with
      hw | ⟨t, ht, ht7, hw, hsplit⟩
    · -- the pages of the flexpage are a row
      obtain ⟨n, hn, hrow, hend, hmem⟩ := exists_row h12 hfirst
      obtain ⟨code, pt', hends, hdone⟩ := rowEnds hlo hs le_rfl (w := { start f
          (min f.getSizeLog2 (pageShift (PgSize.sizeMax + 1))) (walkPgsize f) with
          size := walkPgsize f, pg := entryPtr (f.addressWrapped f.getSizeLog2) (walkPgsize f) })
        rfl (fun _ => rfl) rfl (.inl rfl) hrow hn hend
      refine ⟨code, pt', ends_start _ le_rfl hs huser hw hends, fun hcode => ?_, fun att hc => ?_⟩
      · cases hc : cachingAttrib attrib with
        | none => exact hdone.other hc
        | some att => exact absurd (hdone.caching hc).1 hcode
      · obtain ⟨hcode, hpainted⟩ := hdone.caching hc
        rw [← hpainted.applied_iff hmem (fun hv hin => walks_of_includes h12 hincl hlt41 le_rfl hw
          hin (Nat.lt_trans hv (by decide))) hrow]
        exact ⟨fun h => h hcode, fun h _ => h⟩
    · -- nothing is visited
      obtain ⟨code, hends, hinv⟩ := ends_of_large
        (w := { start f (min f.getSizeLog2 (pageShift (PgSize.sizeMax + 1))) (walkPgsize f) with
          size := t, pg := entryPtr (f.addressWrapped f.getSizeLog2) t })
        ht (Nat.two_pow_pos _).ne' huser hsplit
      refine ⟨code, pt, ends_start _ (Nat.le_of_lt ht) ht7 huser hw hends, fun _ => rfl,
        fun att hc => ⟨fun _ v p r hv hbehind => ?_, fun _ hcode => ?_⟩⟩
      · obtain ⟨rfl, -⟩ := hv.eq_of_large h12 hincl hlt41 ht ht7 hw hsplit
        obtain ⟨k, w, hrk, hk, -⟩ := hbehind
        omega
      · refine (applied_iff_of_none fun v p r hv => ?_).mpr ‹_›
        obtain ⟨-, hval⟩ := hv.eq_of_large h12 hincl hlt41 ht ht7 hw hsplit
        exact absurd hval (by rw [hinv hcode]; decide)
  · -- the flexpage is not in the user area
    have hnone : ∀ v p r, ¬MappedIn sp f pt v p r := fun v p r hv =>
      Nat.lt_irrefl _ (Nat.lt_of_le_of_lt (hfirst.trans hv.includes.1) hv.lt)
    have hout : Space.isUserArea (f.addressWrapped f.getSizeLog2) = false := by
      refine Bool.eq_false_iff.mpr fun huser => ?_
      have hlt := Space.isUserArea_iff.mp huser
      omega
    refine ⟨none, pt, ends_of_stop ?_, fun _ => rfl, fun att hc => ?_⟩
    · simp only [attribStep, start, hout, Bool.not_false, if_true]
    · rw [← applied_iff_of_none hnone]
      exact ⟨fun h => h rfl, fun h _ => h⟩

/-- A call ends. An error changes nothing, and a caching attribute is set on the mapped mappable
pages of the flexpage and on no other page, if and only if those behind a split entry have it. -/
theorem attribFpage_applies_iff (sp : Space) (pt : PageTable) (attrib : Word)
    (h12 : 12 ≤ f.getSizeLog2) :
    ∃ fuel code pt', (∀ n, attribFpage sp f attrib (fuel + n) pt = some (code, pt')) ∧
      (((∀ att, cachingAttrib attrib = some att → code = none → AttribApplied sp f att pt pt') ∧
          (code ≠ none → pt' = pt)) ↔
        ∀ att, cachingAttrib attrib = some att → ∀ v p r, MappedIn sp f pt v p r →
          BehindSplit pt f r v → (pt.get p).attributes = att) := by
  obtain ⟨code, pt', hends, herror, hiff⟩ := attribFpage_ends sp pt attrib h12
  obtain ⟨fuel, hrun⟩ := attribFpage_of_ends h12 hends
  refine ⟨fuel, code, pt', hrun, fun h att hc => (hiff att hc).mp (h.1 att hc), fun h => ?_⟩
  exact ⟨fun att hc => (hiff att hc).mpr (h att hc), herror⟩

/-- The second 16 KB of the sample become uncached. -/
theorem exists_applied : ∃ pt',
    attribFpage .zero ⟨0x40e7⟩ Attribute.uncached 20 sampleTable4k = some (none, pt') ∧
      AttribApplied .zero ⟨0x40e7⟩ Pgent.uncached sampleTable4k pt' := by
  have hcode : (attribFpage .zero ⟨0x40e7⟩ Attribute.uncached 20 sampleTable4k).map Prod.fst =
      some none := by decide +kernel
  obtain ⟨⟨code, pt'⟩, hrun, rfl⟩ := Option.map_eq_some_iff.mp hcode
  obtain ⟨fuel, code', pt'', hrun', hiff⟩ := attribFpage_applies_iff (f := ⟨0x40e7⟩) .zero
    sampleTable4k Attribute.uncached (by decide)
  have heq := hrun' 20
  rw [Nat.add_comm, attribFpage_add hrun] at heq
  cases heq
  refine ⟨pt', hrun, (hiff.mpr fun att hc v p r hmapped hbehind => ?_).1 _ rfl rfl⟩
  -- the flexpage is one page
  obtain ⟨s, w, hrs, hs, ⟨hw, -⟩, -, hbefore, -⟩ := hbehind
  obtain ⟨hv, hv'⟩ := hmapped.includes
  change 0x4000 ≤ w.toNat at hw
  change 0x4000 ≤ v.toNat at hv
  change v.toNat < 0x8000 at hv'
  have h1 : walkPgsize ⟨0x40e7⟩ = 1 := by decide
  have hsize : 1 ≤ r := by
    obtain ⟨-, -, hwalks, -⟩ := walks_of_lookup hmapped.lookup
    refine Nat.le_of_not_lt fun hr => ?_
    have hpage : SamePage 1 0x4000 v := by
      change v.toNat % 2 ^ 41 / 2 ^ 14 = 1
      omega
    have hsub := (hwalks 1 hr (by decide)).2
    rw [entryPtr_congr hpage le_rfl (by decide)] at hsub
    revert hsub
    decide +kernel
  obtain rfl : s = 1 := Nat.le_antisymm (hs.trans_eq h1) (hsize.trans hrs)
  change w.toNat / 2 ^ 14 < v.toNat / 2 ^ 14 at hbefore
  omega

/-- Of the first 64 KB of the sample the second 16 KB keep their attribute. -/
theorem exists_not_applied : ∃ pt',
    attribFpage .zero ⟨0x107⟩ Attribute.uncached 20 sampleTable4k = some (none, pt') ∧
      ¬AttribApplied .zero ⟨0x107⟩ Pgent.uncached sampleTable4k pt' := by
  have hkeep : (attribFpage .zero ⟨0x107⟩ Attribute.uncached 20 sampleTable4k).map
      (fun x => (x.1, (x.2.get (entryPtr 0x4000 1)).attributes)) = some (none, Pgent.writeBack) := by
    decide +kernel
  obtain ⟨⟨code, pt'⟩, hrun, heq⟩ := Option.map_eq_some_iff.mp hkeep
  obtain ⟨rfl, hatt⟩ := Prod.mk.inj heq
  refine ⟨pt', hrun, fun happ => ?_⟩
  have hmapped : MappedIn .zero ⟨0x107⟩ sampleTable4k 0x4000 (entryPtr 0x4000 1) 1 :=
    ⟨⟨by decide, by decide⟩, by decide +kernel, by decide⟩
  have hview := happ.inside hmapped
  obtain ⟨⟨p, r⟩, -, hx⟩ := Option.map_eq_some_iff.mp hview
  obtain ⟨rfl, hx⟩ := Prod.mk.inj hx
  obtain ⟨-, hget⟩ := Prod.mk.inj hx
  dsimp only at hatt hget
  rw [hget, Pgent.attributes_setAttrib] at hatt
  exact absurd hatt (by decide)

end L4Thread
