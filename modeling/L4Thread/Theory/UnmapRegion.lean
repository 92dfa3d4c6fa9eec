import L4Thread.Theory.UnmapRights
import L4Thread.Theory.UnmapWalk

/-!
# Flushing regions

What a flush of all rights does to the page table and which mappings it passes to `mdb_flush`. The
effects are stated for a region, a set of addresses that consists of whole pages of a size, and are
put together from those on its pages. Where `mdb_flush` clears the entry that it is called with, the
translation of the region is lost but for pages that are not mappable, and outside the region the
entries stay, but for the first entry of a group when it is removed.
-/

namespace L4Thread

namespace PageTable

variable {pt pt' : PageTable} {v w : Word} {s r : Nat} {p : PgPtr}

/-- Walks that read the same entries have the same result. -/
theorem lookupFrom_eq (hr : r ≤ 7)
    (h : ∀ k ≤ r, pt'.get (entryPtr v k) = pt.get (entryPtr v k)) :
    pt'.lookupFrom v r (entryPtr v r) = pt.lookupFrom v r (entryPtr v r) := by
  induction r with
  | zero => rw [lookupFrom, lookupFrom, h 0 le_rfl]
  | succ r ih =>
    rw [lookupFrom, lookupFrom, h (r + 1) le_rfl, down_entryPtr v hr,
      ih (by omega) fun k hk => h k (by omega)]

/-- Walks look at the kinds of the entries only. -/
theorem lookupFrom_eq_of_kinds (h : ∀ q k, (pt'.get q).valid k = (pt.get q).valid k ∧
    (pt'.get q).subtree k = (pt.get q).subtree k) (r : Nat) (p : PgPtr) :
    pt'.lookupFrom v r p = pt.lookupFrom v r p := by
  induction r generalizing p with
  | zero => rw [lookupFrom, lookupFrom, (h p 0).1, (h p 0).2]
  | succ r ih => rw [lookupFrom, lookupFrom, (h p (r + 1)).1, (h p (r + 1)).2, ih]

theorem lookupFrom_of_not_valid (h : (pt.get (entryPtr v r)).valid r = false) :
    pt.lookupFrom v r (entryPtr v r) = none := by
  cases r with
  | zero => simp [lookupFrom, h]
  | succ r => simp [lookupFrom, h]

theorem lookupFrom_of_split (hr : r < 7) (h : (pt.get (entryPtr v (r + 1))).Split (r + 1)) :
    pt.lookupFrom v (r + 1) (entryPtr v (r + 1)) = pt.lookupFrom v r (entryPtr v r) := by
  rw [lookupFrom, if_pos h.1, if_pos h.2, down_entryPtr v hr]

/-- A mapping is found at its entry. -/
theorem lookupFrom_of_leaf (hval : (pt.get (entryPtr v r)).valid r = true)
    (hsub : (pt.get (entryPtr v r)).subtree r = false) :
    pt.lookupFrom v r (entryPtr v r) = some (entryPtr v r, r) := by
  cases r with
  | zero => simp [lookupFrom, hval, hsub]
  | succ r => simp [lookupFrom, hval, hsub]

/-- An entry that is shared by two sizes is shared by the sizes between them. -/
theorem entryPtr_eq_between {k : Nat} (h : entryPtr v r = entryPtr v s) (hs : s ≤ k) (hk : k ≤ r)
    (hr : r ≤ 7) : entryPtr v k = entryPtr v s := by
  rcases Nat.eq_or_lt_of_le (hs.trans hk) with rfl | hsr
  · rw [Nat.le_antisymm hk hs]
  · obtain ⟨rfl, rfl⟩ | hr4 := PgOp.cases_of_share h hsr hr
    · obtain rfl | rfl : k = 5 ∨ k = 6 := by omega
      · rfl
      · exact h
    · interval_cases r
      all_goals
        interval_cases k
        all_goals
          interval_cases s
          all_goals
            simp only [entryPtr, PgPtr.mk.injEq, true_and] at h ⊢
      all_goals omega

/-- The walk to a mapping. -/
theorem walks_of_lookup (h : pt.lookupMapping v = some (p, r)) :
    r ≤ 7 ∧ p = entryPtr v r ∧ pt.Walks v r ∧ ¬(pt.get (entryPtr v r)).Split r := by
  rw [lookupMapping, rootPtr_eq] at h
  obtain ⟨hp, hr⟩ := lookupFrom_some le_rfl h
  refine ⟨hr, hp, ?_⟩
  suffices hfrom : ∀ k, k ≤ 7 → pt.Walks v k → pt.lookupFrom v k (entryPtr v k) = some (p, r) →
      pt.Walks v r ∧ ¬(pt.get (entryPtr v r)).Split r from
    hfrom 7 le_rfl (fun _ hr hr7 => absurd hr (Nat.not_lt.mpr hr7)) h
  intro k hk hw hfound
  induction k with
  | zero =>
    cases hval : (pt.get (entryPtr v 0)).valid 0 with
    | false =>
      rw [lookupFrom_of_not_valid hval] at hfound
      cases hfound
    | true =>
      rw [lookupFrom_of_leaf hval (Unmapper.subtree_zero _)] at hfound
      cases hfound
      refine ⟨hw, fun hsplit => ?_⟩
      have hsub := hsplit.2
      rw [Unmapper.subtree_zero] at hsub
      cases hsub
  | succ k ih =>
    by_cases hsplit : (pt.get (entryPtr v (k + 1))).Split (k + 1)
    · rw [lookupFrom_of_split hk hsplit] at hfound
      refine ih (Nat.le_of_succ_le hk) (fun t ht ht7 => ?_) hfound
      rcases Nat.lt_or_eq_of_le (Nat.succ_le_of_lt ht) with hlt | rfl
      · exact hw t hlt ht7
      · exact hsplit
    · cases hval : (pt.get (entryPtr v (k + 1))).valid (k + 1) with
      | false =>
        rw [lookupFrom_of_not_valid hval] at hfound
        cases hfound
      | true =>
        have hsub := Bool.eq_false_iff.mpr fun hsub => hsplit ⟨hval, hsub⟩
        rw [lookupFrom_of_leaf hval hsub] at hfound
        cases hfound
        exact ⟨hw, hsplit⟩

/-- A mapping is the one page of its entry. -/
theorem lookup_inj {t : Nat} (h : pt.lookupMapping v = some (p, r))
    (h' : pt.lookupMapping w = some (p, t)) : r = t ∧ SamePage r v w := by
  obtain ⟨hr, hp, hw, hsplit⟩ := walks_of_lookup h
  obtain ⟨ht, hp', hw', hsplit'⟩ := walks_of_lookup h'
  rcases Nat.lt_trichotomy r t with hlt | rfl | hlt
  · have hpage := samePage_of_entryPtr_eq (hp.symm.trans hp') (Nat.le_of_lt hlt) ht
    rw [← entryPtr_congr hpage le_rfl ht] at hsplit'
    exact absurd (hw t hlt ht) hsplit'
  · exact ⟨rfl, samePage_of_entryPtr_eq (hp'.symm.trans hp) le_rfl hr⟩
  · have hpage := samePage_of_entryPtr_eq (hp'.symm.trans hp) (Nat.le_of_lt hlt) hr
    rw [← entryPtr_congr hpage le_rfl hr] at hsplit
    exact absurd (hw' r hlt hr) hsplit

end PageTable

namespace Unmapper

open PageTable

variable {μ : Type} {u : Unmapper μ} {fpage : Fpage} {pgsize lo s r : Nat} {a v w : Word}
  {R R' : Word → Prop} {pt pt' pt'' : PageTable} {calls calls' : List FlushArgs}

/-! ## Regions -/

/-- The first address of a page, with the low bits that the walk keeps. -/
def firstAddress (lo size : Nat) (v : Word) : Word :=
  BitVec.ofNat 64 (v.toNat / 2 ^ pageShift size * 2 ^ pageShift size + lo)

/-- The entry that a call of `mdb_flush` is for, its size and its address. -/
def flushKey (c : FlushArgs) : PgPtr × Nat × Word := (c.fPg, c.fHwpgsize, c.fAddr)

/-- The region consists of pages of a size. -/
def Paged (s : Nat) (R : Word → Prop) : Prop := ∀ {v w}, R v → SamePage s v w → R w

/-- When the entry is flushed, it takes the larger group that it stands for along. -/
def TakesGroup (e : Pgent) (s : Nat) : Prop :=
  e.valid s = true ∧
    if e.subtree s then PgOp.removeSubtree.Collapses s else (PgOp.clear false).Collapses s

/-- A region was flushed, with calls of `mdb_flush`. -/
structure Flushed (u : Unmapper μ) (lo s : Nat) (R : Word → Prop) (pt pt' : PageTable)
    (calls : List FlushArgs) : Prop where
  frame : ∀ {v r}, r ≤ 7 → ¬R v → (∀ w, R w → entryPtr v r ≠ entryPtr w s) →
    pt'.get (entryPtr v r) = pt.get (entryPtr v r)
  /-- Larger groups stay split, or are lost with their first entry. -/
  split : ∀ {v r}, s < r → r ≤ 7 → (pt.get (entryPtr v r)).Split r →
    (pt'.get (entryPtr v r)).Split r ∨
      (pt'.get (entryPtr v r)).valid r = false ∧ r = s + 1 ∧
        ∃ w, R w ∧ entryPtr v r = entryPtr w s ∧ TakesGroup (pt.get (entryPtr w s)) s
  /-- What is still mapped was not mappable. -/
  gone : ∀ {v p r}, v.toNat < 2 ^ 41 → R v → pt'.lookupFrom v s (entryPtr v s) = some (p, r) →
    pt.lookupFrom v s (entryPtr v s) = some (p, r) ∧
      u.space.isMappable (firstAddress lo r v) = false
  mem : ∀ {k}, k ∈ calls.map flushKey ↔ ∃ v p r, v.toNat < 2 ^ 41 ∧ R v ∧
    pt.lookupFrom v s (entryPtr v s) = some (p, r) ∧ k = (p, r, firstAddress lo r v) ∧
      u.space.isMappable (firstAddress lo r v) = true
  nodup : (calls.map flushKey).Nodup

theorem samePage_symm (h : SamePage s a v) : SamePage s v a := Eq.symm h

/-- Entries of other pages are not those of the region. -/
theorem entryPtr_ne (hR : Paged s R) (hs : s ≤ 7) (hr : r ≤ s) (hv : ¬R v) (hw : R w) :
    entryPtr v r ≠ entryPtr w s :=
  fun h => hv (hR hw (samePage_of_entryPtr_eq h hr hs))

theorem Flushed.get_eq (h : Flushed u lo s R pt pt' calls) (hR : Paged s R) (hs : s ≤ 7)
    (hr : r ≤ s) (hv : ¬R v) : pt'.get (entryPtr v r) = pt.get (entryPtr v r) :=
  h.frame (hr.trans hs) hv fun _ hw => entryPtr_ne hR hs hr hv hw

theorem Flushed.lookup_eq (h : Flushed u lo s R pt pt' calls) (hR : Paged s R) (hs : s ≤ 7)
    (hv : ¬R v) :
    pt'.lookupFrom v s (entryPtr v s) = pt.lookupFrom v s (entryPtr v s) :=
  lookupFrom_eq hs fun _ hk => h.get_eq hR hs hk hv

theorem toNat_firstAddress (hlo : lo < 2 ^ 12) (hv : v.toNat < 2 ^ 41) :
    (firstAddress lo r v).toNat = v.toNat / 2 ^ pageShift r * 2 ^ pageShift r + lo := by
  have hle := Nat.div_mul_le_self v.toNat (2 ^ pageShift r)
  rw [firstAddress, BitVec.toNat_ofNat, Nat.mod_eq_of_lt]
  omega

theorem firstAddress_congr (hv : v.toNat < 2 ^ 41) (hw : w.toNat < 2 ^ 41)
    (h : SamePage r v w) : firstAddress lo r v = firstAddress lo r w := by
  rw [SamePage, Nat.mod_eq_of_lt hv, Nat.mod_eq_of_lt hw] at h
  rw [firstAddress, firstAddress, h]

/-- Pages with the same first address are the same. -/
theorem samePage_of_firstAddress (hlo : lo < 2 ^ 12) (hr : r ≤ s) (hs : s ≤ 7)
    (hv : v.toNat < 2 ^ 41) (hw : w.toNat < 2 ^ 41)
    (h : firstAddress lo r v = firstAddress lo r w) : SamePage s v w := by
  have hnat := congrArg BitVec.toNat h
  rw [toNat_firstAddress hlo hv, toNat_firstAddress hlo hw, Nat.add_right_cancel_iff] at hnat
  have hdiv := Nat.eq_of_mul_eq_mul_right (Nat.two_pow_pos _) hnat
  have hpage : SamePage r v w := by
    rw [SamePage, Nat.mod_eq_of_lt hv, Nat.mod_eq_of_lt hw, hdiv]
  exact hpage.mono hr hs

/-- Two regions are flushed one after the other. -/
theorem Flushed.append (hlo : lo < 2 ^ 12) (hs : s ≤ 7) (hR : Paged s R) (hR' : Paged s R')
    (hdisj : ∀ v, R v → ¬R' v) (h : Flushed u lo s R pt pt' calls)
    (h' : Flushed u lo s R' pt' pt'' calls') :
    Flushed u lo s (fun v => R v ∨ R' v) pt pt'' (calls ++ calls') where
  frame hr hv hne := by
    rw [h'.frame hr (fun hv' => hv (.inr hv')) fun w hw => hne w (.inr hw),
      h.frame hr (fun hv' => hv (.inl hv')) fun w hw => hne w (.inl hw)]
  split {v r} hsr hr hsplit := by
    obtain hsplit' | ⟨hinv, rfl, w, hw, heq, htakes⟩ := h.split hsr hr hsplit
    · obtain hsplit'' | ⟨hinv, hrs, w, hw, heq, htakes⟩ := h'.split hsr hr hsplit'
      · exact .inl hsplit''
      · rw [h.get_eq hR hs le_rfl fun hw' => hdisj w hw' hw] at htakes
        exact .inr ⟨hinv, hrs, w, .inr hw, heq, htakes⟩
    · refine .inr ⟨?_, rfl, w, .inl hw, heq, htakes⟩
      rw [heq] at hinv ⊢
      rwa [h'.get_eq hR' hs le_rfl (hdisj w hw)]
  gone {v p r} hv hRv hlook := by
    rcases hRv with hRv | hRv
    · rw [h'.lookup_eq hR' hs (hdisj v hRv)] at hlook
      exact h.gone hv hRv hlook
    · obtain ⟨hlook', hmap⟩ := h'.gone hv hRv hlook
      rw [h.lookup_eq hR hs fun hv' => hdisj v hv' hRv] at hlook'
      exact ⟨hlook', hmap⟩
  mem {k} := by
    rw [List.map_append, List.mem_append, h.mem, h'.mem]
    constructor
    · rintro (⟨v, p, r, hv, hRv, hrest⟩ | ⟨v, p, r, hv, hRv, hlook, hrest⟩)
      · exact ⟨v, p, r, hv, .inl hRv, hrest⟩
      · rw [h.lookup_eq hR hs fun hv' => hdisj v hv' hRv] at hlook
        exact ⟨v, p, r, hv, .inr hRv, hlook, hrest⟩
    · rintro ⟨v, p, r, hv, hRv | hRv, hlook, hrest⟩
      · exact .inl ⟨v, p, r, hv, hRv, hlook, hrest⟩
      · rw [← h.lookup_eq hR hs fun hv' => hdisj v hv' hRv] at hlook
        exact .inr ⟨v, p, r, hv, hRv, hlook, hrest⟩
  nodup := by
    rw [List.map_append, List.nodup_append]
    refine ⟨h.nodup, h'.nodup, ?_⟩
    rintro k hk _ hk' rfl
    obtain ⟨v, p, r, hv, hRv, hlook, rfl, -⟩ := h.mem.mp hk
    obtain ⟨w, q, t, hw, hRw, hlook', heq, -⟩ := h'.mem.mp hk'
    obtain ⟨-, rfl, haddr⟩ : p = q ∧ r = t ∧ firstAddress lo r v = firstAddress lo t w := by
      simpa using heq
    have hpage := samePage_of_firstAddress hlo (lookupFrom_some hs hlook).2 hs hv hw haddr
    exact hdisj w (hR hRv hpage) hRw

theorem flushed_empty : Flushed u lo s (fun _ => False) pt pt [] where
  frame _ _ _ := rfl
  split _ _ h := .inl h
  gone _ h := h.elim
  mem := ⟨nofun, fun ⟨_, _, _, _, h, _⟩ => h.elim⟩
  nodup := .nil

/-! ## A page -/

/-- The walk is at the start of a page, up to the low bits that it keeps. -/
structure AtPage (lo s : Nat) (a : Word) : Prop where
  low : a.toNat % 2 ^ pageShift s = lo
  lt : a.toNat < 2 ^ 40

theorem paged_page : Paged s (SamePage s a) := fun h h' => h'.trans h

theorem AtPage.firstAddress_eq (h : AtPage lo s a) (hv : v.toNat < 2 ^ 41)
    (hpage : SamePage s a v) : firstAddress lo s v = a := by
  have ha : a.toNat < 2 ^ 41 := Nat.lt_trans h.lt (by decide)
  rw [SamePage, Nat.mod_eq_of_lt hv, Nat.mod_eq_of_lt ha] at hpage
  rw [firstAddress, hpage, ← h.low, Nat.mul_comm, Nat.div_add_mod, BitVec.ofNat_toNat,
    BitVec.setWidth_eq]

theorem get_clear_of_ne {p q : PgPtr} {kernel : Bool} (h : q ≠ p) :
    (pt.clear p s kernel).get q = pt.get q := by
  rw [PageTable.clear]
  split
  · split
    · exact PgOp.get_set_of_ne h
    · exact PgOp.get_set_of_ne h
  · split
    · exact PgOp.get_set_of_ne h
    · exact PgOp.get_set_of_ne h

theorem get_removeSubtree_of_ne {p q : PgPtr} (h : q ≠ p) :
    (pt.removeSubtree p s).get q = pt.get q := by
  rw [removeSubtree]
  split
  · exact PgOp.get_set_of_ne h
  · exact PgOp.get_set_of_ne h

theorem not_valid_clear {e : Pgent} {kernel : Bool} (h : e.subtree s = false) :
    ((PgOp.clear kernel).entry e s).valid s = false := by
  rw [PgOp.entry]
  split
  · rfl
  · rename_i hs
    rw [Pgent.subtree, if_neg fun h => hs h.symm] at h
    simp only [Pgent.valid, Bool.false_or, Bool.true_and, h]

/-- A mapping is flushed. -/
theorem flushed_leaf (hs : s ≤ 7) (ha : AtPage lo s a)
    (hval : (pt.get (entryPtr a s)).valid s = true)
    (hsub : (pt.get (entryPtr a s)).subtree s = false) (hmap : u.space.isMappable a = true)
    {c : FlushArgs} (hc : flushKey c = (entryPtr a s, s, a)) :
    Flushed u lo s (SamePage s a) pt (pt.clear (entryPtr a s) s false) [c] := by
  have hself : (pt.clear (entryPtr a s) s false).get (entryPtr a s) =
      (PgOp.clear false).entry (pt.get (entryPtr a s)) s :=
    @PgOp.get_apply_self (.clear false) ..
  have hsame : ∀ {v}, SamePage s a v → entryPtr v s = entryPtr a s :=
    fun h => entryPtr_congr h le_rfl hs
  refine ⟨fun hr hv hne => get_clear_of_ne (hne a rfl), fun {v r} hsr hr hsplit => ?_,
    fun {v p r} hv hpage hlook => ?_, fun {k} => ?_, List.nodup_singleton _⟩
  · rcases eq_or_ne (entryPtr v r) (entryPtr a s) with heq | hne
    · have hshare := PgOp.entryPtr_eq_of_lt heq hsr hr
      rw [heq] at hsplit
      rw [heq, hself]
      by_cases hcol : (PgOp.clear false).Collapses s ∧ r = s + 1
      · obtain ⟨hcol, rfl⟩ := hcol
        refine .inr ⟨PgOp.not_valid_entry hcol, rfl, a, rfl, rfl, hval, ?_⟩
        rwa [hsub]
      · exact .inl (PgOp.split_entry hs hsr hr hshare hsplit fun h heq => hcol ⟨h, heq⟩)
    · rw [get_clear_of_ne hne]
      exact .inl hsplit
  · rw [lookupFrom_of_not_valid (by rw [hsame hpage, hself, not_valid_clear hsub])] at hlook
    cases hlook
  · have hfound : ∀ {v}, SamePage s a v →
        pt.lookupFrom v s (entryPtr v s) = some (entryPtr a s, s) := by
      intro v hpage
      have heq := hsame hpage
      rw [← heq] at hval hsub
      rw [lookupFrom_of_leaf hval hsub, heq]
    rw [List.map_singleton, List.mem_singleton, hc]
    constructor
    · rintro rfl
      have ha' : a.toNat < 2 ^ 41 := Nat.lt_trans ha.lt (by decide)
      have hfirst := ha.firstAddress_eq ha' rfl
      exact ⟨a, _, _, ha', rfl, hfound rfl, by rw [hfirst], by rw [hfirst, hmap]⟩
    · rintro ⟨v, p, r, hv, hpage, hlook, rfl, -⟩
      cases (hfound hpage).symm.trans hlook
      rw [ha.firstAddress_eq hv hpage]

/-- Nothing is done at an entry that is invalid or not mappable. -/
theorem flushed_skip (hs : s ≤ 7) (ha : AtPage lo s a) (hsplit : ¬(pt.get (entryPtr a s)).Split s)
    (hskip : (pt.get (entryPtr a s)).valid s = true → u.space.isMappable a = false) :
    Flushed u lo s (SamePage s a) pt pt [] := by
  have hfound : ∀ {v p r}, v.toNat < 2 ^ 41 → SamePage s a v →
      pt.lookupFrom v s (entryPtr v s) = some (p, r) →
      u.space.isMappable (firstAddress lo r v) = false := by
    intro v p r hv hpage hlook
    have hsame : entryPtr v s = entryPtr a s := entryPtr_congr hpage le_rfl hs
    cases hval : (pt.get (entryPtr a s)).valid s with
    | false =>
      rw [lookupFrom_of_not_valid (by rw [hsame, hval])] at hlook
      cases hlook
    | true =>
      have hsub : (pt.get (entryPtr a s)).subtree s = false :=
        Bool.eq_false_iff.mpr fun hsub => hsplit ⟨hval, hsub⟩
      rw [lookupFrom_of_leaf (by rw [hsame, hval]) (by rw [hsame, hsub])] at hlook
      cases hlook
      rw [ha.firstAddress_eq hv hpage, hskip hval]
  refine ⟨fun _ _ _ => rfl, fun _ _ h => .inl h, fun hv hpage hlook => ?_, ⟨nofun, ?_⟩, .nil⟩
  · exact ⟨hlook, hfound hv hpage hlook⟩
  · rintro ⟨v, p, r, hv, hpage, hlook, -, hmap⟩
    cases (hfound hv hpage hlook).symm.trans hmap

/-- The pages of the table below an entry are those of its page. -/
theorem Flushed.above (hs : s < 7) (h : Flushed u lo s (SamePage (s + 1) a) pt pt' calls)
    (hsplit : (pt.get (entryPtr a (s + 1))).Split (s + 1)) :
    Flushed u lo (s + 1) (SamePage (s + 1) a) pt pt' calls := by
  have hv : ∀ {v}, SamePage (s + 1) a v → (pt.get (entryPtr v (s + 1))).Split (s + 1) :=
    fun hpage => by rwa [entryPtr_congr hpage le_rfl hs]
  refine ⟨fun {v r} hr hR hne => h.frame hr hR fun w hw heq => ?_, fun {v r} hsr hr hsp => ?_,
    fun {v p r} hlt hR hlook => ?_, fun {k} => ?_, h.nodup⟩
  · rcases Nat.lt_or_ge s r with hsr | hrs
    · have hshare := PgOp.entryPtr_eq_of_lt heq hsr hr
      exact hne w hw (heq.trans (entryPtr_eq_between hshare (Nat.le_succ s) hsr hr).symm)
    · have hpage := samePage_of_entryPtr_eq heq hrs (Nat.le_of_lt hs)
      exact hR (paged_page hw (hpage.mono (Nat.le_succ s) hs))
  · obtain hsp' | ⟨-, rfl, -⟩ := h.split (by omega) hr hsp
    · exact .inl hsp'
    · omega
  · obtain hsp | ⟨hinv, -⟩ := h.split (Nat.lt_succ_self s) hs (hv hR)
    · rw [lookupFrom_of_split hs hsp] at hlook
      rw [lookupFrom_of_split hs (hv hR)]
      exact h.gone hlt hR hlook
    · rw [lookupFrom_of_not_valid hinv] at hlook
      cases hlook
  · rw [h.mem]
    constructor
    · rintro ⟨v, p, r, hlt, hR, hlook, hrest⟩
      rw [← lookupFrom_of_split hs (hv hR)] at hlook
      exact ⟨v, p, r, hlt, hR, hlook, hrest⟩
    · rintro ⟨v, p, r, hlt, hR, hlook, hrest⟩
      rw [lookupFrom_of_split hs (hv hR)] at hlook
      exact ⟨v, p, r, hlt, hR, hlook, hrest⟩

theorem not_valid_removeSubtree {e : Pgent} (hs : s ≤ 7) :
    (PgOp.removeSubtree.entry e s).valid s = false := by
  rw [PgOp.entry]
  split
  · rfl
  · interval_cases s
    all_goals simp [Pgent.valid]

/-- The entry of a subtree that was flushed is removed. -/
theorem Flushed.remove (h1 : 1 ≤ s) (hs : s ≤ 7) (h : Flushed u lo s (SamePage s a) pt pt' calls)
    (hsplit : (pt.get (entryPtr a s)).Split s) :
    Flushed u lo s (SamePage s a) pt (pt'.removeSubtree (entryPtr a s) s) calls := by
  have hself : (pt'.removeSubtree (entryPtr a s) s).get (entryPtr a s) =
      PgOp.removeSubtree.entry (pt'.get (entryPtr a s)) s :=
    @PgOp.get_apply_self .removeSubtree ..
  refine ⟨fun {v r} hr hR hne => ?_, fun {v r} hsr hr hsp => ?_, fun {v p r} hlt hR hlook => ?_,
    h.mem, h.nodup⟩
  · rw [get_removeSubtree_of_ne (hne a rfl), h.frame hr hR hne]
  · rcases eq_or_ne (entryPtr v r) (entryPtr a s) with heq | hne
    · have hshare := PgOp.entryPtr_eq_of_lt heq hsr hr
      have hcases := PgOp.cases_of_share hshare hsr hr
      rw [heq, hself]
      rcases eq_or_ne r (s + 1) with rfl | hrs
      · have hcol : PgOp.removeSubtree.Collapses s := by
          simp only [PgOp.Collapses, PgSize.size16k, PgSize.size64k, PgSize.size256k, PgSize.size4m]
          omega
        refine .inr ⟨PgOp.not_valid_entry hcol, rfl, a, rfl, rfl, hsplit.1, ?_⟩
        rwa [if_pos hsplit.2]
      · obtain hsp' | ⟨-, hrs', -⟩ := h.split hsr hr hsp
        · rw [heq] at hsp'
          exact .inl (PgOp.split_entry ⟨h1, hs⟩ hsr hr hshare hsp' fun _ => hrs)
        · exact absurd hrs' hrs
    · rw [get_removeSubtree_of_ne hne]
      exact h.split hsr hr hsp
  · have hsame : entryPtr v s = entryPtr a s := entryPtr_congr hR le_rfl hs
    rw [lookupFrom_of_not_valid (by rw [hsame, hself, not_valid_removeSubtree hs])] at hlook
    cases hlook

/-! ## Rows of pages -/

/-- The address `k` pages on. -/
def addPages (s : Nat) (a : Word) (k : Nat) : Word := a + BitVec.ofNat 64 k * pageSizeBytes s

theorem addPages_zero : addPages s a 0 = a := by simp [addPages]

theorem addPages_one : addPages s a 1 = a + pageSizeBytes s := by
  rw [addPages]
  congr 1
  exact BitVec.one_mul _

theorem addPages_succ {k : Nat} : addPages s (addPages s a 1) k = addPages s a (k + 1) := by
  rw [addPages_one]
  exact add_pages_succ

theorem toNat_addPages {k : Nat} (hs : s ≤ 7) (h : a.toNat + k * 2 ^ pageShift s < 2 ^ 41) :
    (addPages s a k).toNat = a.toNat + k * 2 ^ pageShift s :=
  toNat_add_pages hs (Nat.lt_trans h (by decide))

/-- The number of a page. -/
theorem div_addPages {k : Nat} (hs : s ≤ 7) (h : a.toNat + k * 2 ^ pageShift s < 2 ^ 41) :
    (addPages s a k).toNat % 2 ^ 41 / 2 ^ pageShift s = a.toNat / 2 ^ pageShift s + k := by
  rw [toNat_addPages hs h, Nat.mod_eq_of_lt h, Nat.add_mul_div_right _ _ (Nat.two_pow_pos _)]

/-- The page is one of a row of pages. -/
def InRow (s : Nat) (a : Word) (n : Nat) (v : Word) : Prop :=
  ∃ k, k < n ∧ SamePage s (addPages s a k) v

/-- A row of pages in the user area, with the entries one after the other. -/
structure Row (lo s : Nat) (a : Word) (n : Nat) : Prop where
  page : ∀ {k}, k < n → AtPage lo s (addPages s a k)
  fits : n ≠ 0 → a.toNat + (n - 1) * 2 ^ pageShift s < 2 ^ 41
  entry : ∀ {k}, k < n → entryPtr (addPages s a k) s = (entryPtr a s).next s k

theorem next_next {p : PgPtr} {k : Nat} : (p.next s 1).next s k = p.next s (k + 1) := by
  simp only [PgPtr.next, Nat.mul_one, Nat.mul_add, PgPtr.mk.injEq, true_and]
  omega

theorem Row.tail {n : Nat} (hs : s ≤ 7) (h : Row lo s a (n + 1)) : Row lo s (addPages s a 1) n where
  page hk := by
    rw [addPages_succ]
    exact h.page (Nat.succ_lt_succ hk)
  fits hn := by
    have hfits := h.fits (Nat.succ_ne_zero n)
    obtain ⟨m, rfl⟩ := Nat.exists_eq_succ_of_ne_zero hn
    rw [Nat.succ_eq_add_one, Nat.add_sub_cancel] at hfits ⊢
    rw [Nat.add_mul, Nat.one_mul] at hfits
    rw [toNat_addPages hs (by omega), Nat.one_mul]
    omega
  entry {k} hk := by
    rw [addPages_succ, h.entry (Nat.succ_lt_succ hk), h.entry (k := 1) (by omega), next_next]

/-- Different pages of a row. -/
theorem Row.disjoint {n : Nat} (hs : s ≤ 7) (h : Row lo s a (n + 1)) (hv : SamePage s a v) :
    ¬InRow s (addPages s a 1) n v := by
  rintro ⟨k, hk, hpage⟩
  rw [addPages_succ] at hpage
  have hfits := h.fits (Nat.succ_ne_zero n)
  rw [Nat.add_sub_cancel] at hfits
  have hle : (k + 1) * 2 ^ pageShift s ≤ n * 2 ^ pageShift s := Nat.mul_le_mul_right _ hk
  have hmod : a.toNat % 2 ^ 41 = a.toNat := Nat.mod_eq_of_lt (by omega)
  rw [SamePage, div_addPages hs (by omega)] at hpage
  rw [SamePage, hmod] at hv
  omega

theorem inRow_succ {n : Nat} :
    InRow s a (n + 1) v ↔ SamePage s a v ∨ InRow s (addPages s a 1) n v := by
  constructor
  · rintro ⟨k, hk, hpage⟩
    cases k with
    | zero =>
      rw [addPages_zero] at hpage
      exact .inl hpage
    | succ k =>
      rw [← addPages_succ] at hpage
      exact .inr ⟨k, by omega, hpage⟩
  · rintro (hpage | ⟨k, hk, hpage⟩)
    · exact ⟨0, Nat.succ_pos n, by rwa [addPages_zero]⟩
    · rw [addPages_succ] at hpage
      exact ⟨k + 1, by omega, hpage⟩

theorem paged_inRow {n : Nat} : Paged s (InRow s a n) := by
  rintro v w ⟨k, hk, hpage⟩ hw
  exact ⟨k, hk, hw.trans hpage⟩

/-! ## The visit -/

/-- A visit flushes a region. -/
def Does (u : Unmapper μ) (lo s : Nat) (R : Word → Prop) (x x' : Visited (μ × Reports)) : Prop :=
  ∃ calls, Flushed u lo s R x.2.1 x'.2.1 calls ∧
    x'.2.2.2.map Prod.fst = x.2.2.2.map Prod.fst ++ calls

theorem Does.append {x x' x'' : Visited (μ × Reports)} (hlo : lo < 2 ^ 12) (hs : s ≤ 7)
    (hR : Paged s R) (hR' : Paged s R') (hdisj : ∀ v, R v → ¬R' v) (h : Does u lo s R x x')
    (h' : Does u lo s R' x' x'') : Does u lo s (fun v => R v ∨ R' v) x x'' := by
  obtain ⟨calls, hf, hlog⟩ := h
  obtain ⟨calls', hf', hlog'⟩ := h'
  refine ⟨calls ++ calls', hf.append hlo hs hR hR' hdisj hf', ?_⟩
  rw [hlog', hlog, List.append_assoc]

/-- The pages of a row are visited one after the other. -/
theorem does_range (hlo : lo < 2 ^ 12) (hs : s ≤ 7)
    {visit : PgPtr → Word → Visited (μ × Reports) → Visited (μ × Reports)}
    (hvisit : ∀ {a x}, AtPage lo s a → Does u lo s (SamePage s a) x (visit (entryPtr a s) a x))
    {n : Nat} {x : Visited (μ × Reports)} (h : Row lo s a n) :
    Does u lo s (InRow s a n) x (visitRange s visit n (entryPtr a s) a x) := by
  induction n generalizing a x with
  | zero =>
    have hempty : InRow s a 0 = fun _ => False := funext fun v => by
      simp [InRow]
    rw [hempty]
    exact ⟨[], flushed_empty, (List.append_nil _).symm⟩
  | succ n ih =>
    have hfirst : AtPage lo s a := by simpa [addPages_zero] using h.page (Nat.succ_pos n)
    have hregion : InRow s a (n + 1) = fun v => SamePage s a v ∨ InRow s (addPages s a 1) n v :=
      funext fun v => propext inRow_succ
    rw [hregion]
    refine (hvisit hfirst).append hlo hs paged_page paged_inRow (fun v => h.disjoint hs) ?_
    cases n with
    | zero => exact ih (h.tail hs)
    | succ n =>
      have hnext : (entryPtr a s).next s 1 = entryPtr (addPages s a 1) s :=
        (h.entry (k := 1) (by omega)).symm
      rw [visitRange, hnext, ← addPages_one]
      exact ih (h.tail hs)

/-- A page further on in the table. -/
theorem samePage_addPages {k : Nat} (hs : s < 7)
    (hk : pageTableIndex s a + k < pageTableSize s)
    (h : a.toNat + k * 2 ^ pageShift s < 2 ^ 41) :
    SamePage (s + 1) a (addPages s a k) ∧
      pageTableIndex s (addPages s a k) = pageTableIndex s a + k := by
  have hlt : a.toNat < 2 ^ 41 := Nat.lt_of_le_of_lt (Nat.le_add_right _ _) h
  have hpos : 0 < pageTableSize s := Nat.two_pow_pos _
  rw [SamePage, two_pow_pageShift_succ hs.le, ← Nat.div_div_eq_div_mul,
    ← Nat.div_div_eq_div_mul, pageTableIndex_eq_mod hs.le, div_addPages hs.le h,
    Nat.mod_eq_of_lt hlt]
  rw [pageTableIndex] at hk ⊢
  -- the pages before the table, and the index in it
  generalize a.toNat / 2 ^ pageShift s = n at hk ⊢
  have hsplit : n + k = n % pageTableSize s + k + pageTableSize s * (n / pageTableSize s) := by
    rw [Nat.add_right_comm, Nat.mod_add_div]
  rw [hsplit, Nat.add_mul_div_left _ _ hpos, Nat.add_mul_mod_self_left, Nat.div_eq_of_lt hk,
    Nat.mod_eq_of_lt hk, Nat.zero_add]
  exact ⟨rfl, rfl⟩

/-- The entry of a page further on in the table. -/
theorem entryPtr_addPages {k : Nat} (hs : s ≤ 7)
    (hk : s < 7 → pageTableIndex s a + k < pageTableSize s)
    (h : a.toNat + k * 2 ^ pageShift s < 2 ^ 41) :
    entryPtr (addPages s a k) s = (entryPtr a s).next s k := by
  rcases Nat.lt_or_eq_of_le hs with hlt | rfl
  · obtain ⟨hpage, hidx⟩ := samePage_addPages hlt (hk hlt) h
    rw [← down_entryPtr _ hlt, ← down_entryPtr a hlt, entryPtr_congr hpage le_rfl hlt, down, down,
      hidx]
    simp only [PgPtr.next, Nat.mul_add, Nat.add_assoc]
  · have htoNat := toNat_addPages hs h
    simp only [entryPtr, pageTableIndex, htoNat, pageTableSize, pageShift, hwPgshifts,
      List.getD_cons_zero, List.getD_cons_succ, PgPtr.next, PgPtr.stride, PgPtr.mk.injEq, true_and]
      at h ⊢
    omega

/-- The address of a page is that of the first page of its table. -/
theorem AtPage.index_eq (hlo : lo < 2 ^ 12) (hs : s < 7) (h : AtPage lo (s + 1) a) :
    pageTableIndex s a = 0 := by
  have hlow := h.low
  rw [two_pow_pageShift_succ hs.le] at hlow
  rw [pageTableIndex, ← Nat.mod_mul_right_div_self, hlow]
  exact Nat.div_eq_of_lt (hlo.trans_le (Nat.pow_le_pow_right (by decide) (pageShift_bounds hs.le).1))

/-- The pages of a table are in the user area. -/
theorem AtPage.fits {k : Nat} (hlo : lo < 2 ^ 12) (hs : s < 7) (h : AtPage lo (s + 1) a)
    (hk : k < pageTableSize s) : a.toNat + k * 2 ^ pageShift s < 2 ^ 40 := by
  have hlow := h.low
  have hlt := h.lt
  have hlo' : lo < 2 ^ pageShift s :=
    hlo.trans_le (Nat.pow_le_pow_right (by decide) (pageShift_bounds hs.le).1)
  obtain ⟨m, hm⟩ : 2 ^ pageShift (s + 1) ∣ 2 ^ 40 :=
    Nat.pow_dvd_pow 2 ((pageShift_bounds (s := s + 1) hs).2.trans (by decide))
  have hpage : lo + k * 2 ^ pageShift s < 2 ^ pageShift (s + 1) := by
    rw [two_pow_pageShift_succ hs.le, Nat.mul_comm _ (pageTableSize s)]
    have hle := Nat.mul_le_mul_right (2 ^ pageShift s) (Nat.succ_le_of_lt hk)
    rw [Nat.succ_mul] at hle
    omega
  rw [hm] at hlt ⊢
  have hquot : a.toNat / 2 ^ pageShift (s + 1) < m := Nat.div_lt_of_lt_mul hlt
  have hle := Nat.mul_le_mul_left (2 ^ pageShift (s + 1)) (Nat.succ_le_of_lt hquot)
  have hsplit := Nat.mod_add_div a.toNat (2 ^ pageShift (s + 1))
  rw [hlow] at hsplit
  rw [Nat.mul_succ] at hle
  omega

/-- The pages of the table below an entry are a row. -/
theorem AtPage.row (hlo : lo < 2 ^ 12) (hs : s < 7) (h : AtPage lo (s + 1) a) :
    Row lo s a (pageTableSize s) where
  page {k} hk := by
    have hlow := h.low
    have hfits := h.fits hlo hs hk
    have htoNat := toNat_addPages (Nat.le_of_lt hs) (Nat.lt_trans hfits (by decide))
    refine ⟨?_, by rwa [htoNat]⟩
    have hmod := Nat.mod_mul_right_mod a.toNat (2 ^ pageShift s) (pageTableSize s)
    rw [← two_pow_pageShift_succ hs.le, hlow] at hmod
    rw [htoNat, Nat.add_mul_mod_self_right, ← hmod]
    exact Nat.mod_eq_of_lt
      (hlo.trans_le (Nat.pow_le_pow_right (by decide) (pageShift_bounds hs.le).1))
  fits hn := Nat.lt_trans (h.fits hlo hs (Nat.sub_one_lt hn)) (by decide)
  entry {k} hk := by
    refine entryPtr_addPages (Nat.le_of_lt hs) (fun _ => ?_)
      (Nat.lt_trans (h.fits hlo hs hk) (by decide))
    rwa [h.index_eq hlo hs, Nat.zero_add]

/-- The row of the pages of a table is the page above. -/
theorem AtPage.inRow (hlo : lo < 2 ^ 12) (hs : s < 7) (h : AtPage lo (s + 1) a) :
    InRow s a (pageTableSize s) = SamePage (s + 1) a := by
  have hpage : ∀ {k}, k < pageTableSize s → SamePage (s + 1) a (addPages s a k) ∧
      pageTableIndex s (addPages s a k) = k := by
    intro k hk
    obtain ⟨hp, hidx⟩ := samePage_addPages (a := a) hs (by rwa [h.index_eq hlo hs, Nat.zero_add])
      (Nat.lt_trans (h.fits hlo hs hk) (by decide))
    rw [h.index_eq hlo hs, Nat.zero_add] at hidx
    exact ⟨hp, hidx⟩
  refine funext fun v => propext ⟨?_, fun hv => ?_⟩
  · rintro ⟨k, hk, hv⟩
    exact (hv.mono (Nat.le_succ s) hs).trans (hpage hk).1
  · have hk := pageTableIndex_lt s v
    obtain ⟨hp, hidx⟩ := hpage hk
    exact ⟨_, hk, (samePage_iff hs).mpr ⟨hv.trans hp.symm, hidx.symm⟩⟩

/-- The first entry of the table below. -/
theorem AtPage.entry (hlo : lo < 2 ^ 12) (hs : s < 7) (h : AtPage lo (s + 1) a) :
    entryPtr a s = (entryPtr a (s + 1)).subtree (s + 1) := by
  rw [← down_entryPtr a hs, down, h.index_eq hlo hs]
  rfl

/-- `mdb_flush` clears the entry of a mapping whose rights are all revoked, and leaves the others in
the tables of this space. -/
def ClearsEntry (u : Unmapper μ) : Prop :=
  ∀ a st, a.fp.isRwx = true → a.unmapSelf = true →
    (u.mdbFlush a st).2.1 = st.1.clear a.fPg a.fHwpgsize false

section

variable (hrwx : fpage.isRwx = true) (hflush : u.ClearsEntry)
include hrwx hflush

/-- The visit of an entry without a table below. -/
theorem does_leaf (hs : s ≤ 7) {x : Visited (μ × Reports)} (ha : AtPage lo s a)
    (hsplit : ¬(x.2.1.get (entryPtr a s)).Split s) :
    Does u lo s (SamePage s a) x
      (u.recording.visit fpage true false pgsize s (entryPtr a s) a x) := by
  have hspace : u.recording.space = u.space := rfl
  rw [visit_of_not_split hsplit]
  split
  · rename_i hval
    have hsub : (x.2.1.get (entryPtr a s)).subtree s = false :=
      Bool.eq_false_iff.mpr fun hsub => hsplit ⟨hval, hsub⟩
    simp only [visitLeaf, unmapLeaf, hspace]
    split
    · rename_i hmap
      have hdone : ∀ c : FlushArgs, flushKey c = (entryPtr a s, s, a) → c.fp = fpage →
          c.unmapSelf = true →
          Flushed u lo s (SamePage s a) x.2.1 (u.mdbFlush c (x.2.1, x.2.2.1)).2.1 [c] := by
        intro c hc hfp hself
        obtain ⟨hpg, hsize, -⟩ : c.fPg = entryPtr a s ∧ c.fHwpgsize = s ∧ c.fAddr = a := by
          simpa [flushKey] using hc
        rw [hflush c _ (hfp ▸ hrwx) hself, hpg, hsize]
        exact flushed_leaf hs ha hval hsub hmap hc
      exact ⟨[_], hdone _ rfl rfl rfl, List.map_append⟩
    · rename_i hmap
      rw [if_neg (by decide)]
      exact ⟨[], flushed_skip hs ha hsplit fun _ => Bool.eq_false_iff.mpr hmap,
        (List.append_nil _).symm⟩
  · rename_i hval
    exact ⟨[], flushed_skip hs ha hsplit fun h => absurd h hval, (List.append_nil _).symm⟩

/-- What the visit of a page does. -/
theorem does_visit (hlo : lo < 2 ^ 12) (hs : s ≤ 7) {x : Visited (μ × Reports)}
    (ha : AtPage lo s a) : Does u lo s (SamePage s a) x
      (u.recording.visit fpage true false pgsize s (entryPtr a s) a x) := by
  induction s generalizing a x with
  | zero =>
    refine does_leaf hrwx hflush hs ha ?_
    rintro ⟨-, hsub⟩
    rw [subtree_zero] at hsub
    cases hsub
  | succ s ih =>
    by_cases hsplit : (x.2.1.get (entryPtr a (s + 1))).Split (s + 1)
    · obtain ⟨calls, hf, hlog⟩ := does_range (x := x) hlo (Nat.le_of_lt hs)
        (fun ha => ih (Nat.le_of_lt hs) ha) (ha.row hlo hs)
      rw [ha.inRow hlo hs] at hf
      rw [visit, if_pos hsplit.1, if_pos hsplit.2, ← ha.entry hlo hs, leaveSubtree]
      split
      · exact ⟨calls, (hf.above hs hsplit).remove (Nat.succ_pos s) hs hsplit, hlog⟩
      · exact ⟨calls, hf.above hs hsplit, hlog⟩
    · exact does_leaf hrwx hflush hs ha hsplit

end

end Unmapper

end L4Thread
