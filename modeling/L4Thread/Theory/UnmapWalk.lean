import L4Thread.Theory.PageTable
import L4Thread.Kernel.Unmap

/-!
# The walk of `unmap_fpage`

The walk keeps its place in a pointer, an address, a count and a stack. What it does at an entry and
everything below it is a recursion on the page size: the walk reaches the label `Next_entry` for the
entry with what the recursion has done. So it visits the entries of its own page size one after the
other, up to the end of the user area, and ends.
-/

namespace L4Thread

namespace Unmapper

variable {μ : Type}

/-! ## The recursion -/

section Visit

variable (u : Unmapper μ) (fpage : Fpage) (flush unmapAll : Bool) (pgsize : Nat)

/-- The rights that were collected, the page table and the other memory. -/
abbrev Visited (μ : Type) := Word × (PageTable × μ)

/-- A mapping is visited. -/
def visitLeaf (size : Nat) (pg : PgPtr) (vaddr : Word) (x : Visited μ) : Visited μ :=
  let w : UnmapWalk := ⟨size, pg, vaddr, 0, x.1, fun _ => pg, fun _ => 0⟩
  let r := u.unmapLeaf fpage flush unmapAll pgsize w x.2
  (r.1.rwx, r.2)

/-- Entries of a size are visited one after the other. -/
def visitRange (size : Nat) (visit : PgPtr → Word → Visited μ → Visited μ) :
    Nat → PgPtr → Word → Visited μ → Visited μ
  | 0, _, _, x => x
  | n + 1, pg, vaddr, x =>
    visitRange size visit n (pg.next size 1) (vaddr + pageSizeBytes size) (visit pg vaddr x)

/-- The entry of a subtree that has been visited is removed. -/
def leaveSubtree (size : Nat) (pg : PgPtr) (vaddr : Word) (x : Visited μ) : Visited μ :=
  let fp := Fpage.set (vaddr + pageSizeBytes size) (pageSizeBytes size).toNat
  if flush && fpage.isRwx && (unmapAll || u.space.isMappableFpage fp) then
    (x.1, (x.2.1.removeSubtree pg size, x.2.2))
  else x

/-- An entry is visited, with everything below it. -/
def visit : Nat → PgPtr → Word → Visited μ → Visited μ
  | 0, pg, vaddr, x =>
    if (x.2.1.get pg).valid 0 then u.visitLeaf fpage flush unmapAll pgsize 0 pg vaddr x else x
  | size + 1, pg, vaddr, x =>
    if (x.2.1.get pg).valid (size + 1) then
      if (x.2.1.get pg).subtree (size + 1) then
        u.leaveSubtree fpage flush unmapAll (size + 1) pg vaddr <|
          visitRange size (visit size) (pageTableSize size) (pg.subtree (size + 1)) vaddr x
      else u.visitLeaf fpage flush unmapAll pgsize (size + 1) pg vaddr x
    else x

end Visit

/-! ## The loop -/

variable {u : Unmapper μ} {fpage : Fpage} {flush unmapAll : Bool} {pgsize : Nat}
  {w w' : UnmapWalk} {st st' : PageTable × μ}

/-- The walk comes from one place to another. -/
def Reaches (u : Unmapper μ) (fpage : Fpage) (flush unmapAll : Bool) (pgsize : Nat)
    (a b : UnmapWalk × (PageTable × μ)) : Prop :=
  ∃ n, ∀ fuel, u.unmapLoop fpage flush unmapAll pgsize (n + fuel) a.1 a.2 =
    u.unmapLoop fpage flush unmapAll pgsize fuel b.1 b.2

theorem Reaches.refl {a : UnmapWalk × (PageTable × μ)} :
    Reaches u fpage flush unmapAll pgsize a a :=
  ⟨0, fun fuel => by rw [Nat.zero_add]⟩

theorem Reaches.trans {a b c : UnmapWalk × (PageTable × μ)}
    (h : Reaches u fpage flush unmapAll pgsize a b)
    (h' : Reaches u fpage flush unmapAll pgsize b c) :
    Reaches u fpage flush unmapAll pgsize a c := by
  obtain ⟨n, hn⟩ := h
  obtain ⟨k, hk⟩ := h'
  exact ⟨n + k, fun fuel => by rw [Nat.add_assoc, hn, hk]⟩

theorem Reaches.step (hnum : w.num ≠ 0)
    (h : u.unmapStep fpage flush unmapAll pgsize w st = some (w', st')) :
    Reaches u fpage flush unmapAll pgsize (w, st) (w', st') := by
  refine ⟨1, fun fuel => ?_⟩
  rw [Nat.add_comm, unmapLoop, if_neg hnum, h]

/-- The places to come back to are the same from a size on. -/
structure SameStack (size : Nat) (w w' : UnmapWalk) : Prop where
  rPg : ∀ s, size ≤ s → w'.rPg s = w.rPg s
  rNum : ∀ s, size ≤ s → w'.rNum s = w.rNum s

theorem SameStack.refl {size : Nat} : SameStack size w w := ⟨fun _ _ => rfl, fun _ _ => rfl⟩

theorem SameStack.trans {size : Nat} {w'' : UnmapWalk} (h : SameStack size w w')
    (h' : SameStack size w' w'') : SameStack size w w'' :=
  ⟨fun s hs => (h'.rPg s hs).trans (h.rPg s hs), fun s hs => (h'.rNum s hs).trans (h.rNum s hs)⟩

theorem SameStack.mono {size size' : Nat} (h : SameStack size w w') (hle : size ≤ size') :
    SameStack size' w w' :=
  ⟨fun s hs => h.rPg s (hle.trans hs), fun s hs => h.rNum s (hle.trans hs)⟩

/-- The page of an address is in the user area, up to the low bits of the address. -/
def InUserArea (size : Nat) (vaddr : Word) : Prop :=
  vaddr.toNat / 2 ^ 12 * 2 ^ 12 + 2 ^ pageShift size ≤ 2 ^ 40

theorem InUserArea.isUserArea {size : Nat} {v : Word} (h : InUserArea size v) (hs : size ≤ 7) :
    Space.isUserArea v = true := by
  have hpow : 2 ^ 12 ≤ 2 ^ pageShift size := by
    interval_cases size
    all_goals decide
  have hlt : v.toNat < 2 ^ 40 := by
    unfold InUserArea at h
    omega
  rw [Space.isUserArea, decide_eq_true_eq, BitVec.le_def]
  exact Nat.le_of_lt_succ hlt

/-- The address of an entry further on. -/
theorem toNat_add_pages {size k : Nat} {v : Word} (hs : size ≤ 7)
    (h : v.toNat + k * 2 ^ pageShift size < 2 ^ 64) :
    (v + BitVec.ofNat 64 k * pageSizeBytes size).toNat = v.toNat + k * 2 ^ pageShift size := by
  have hbytes : (pageSizeBytes size).toNat = 2 ^ pageShift size := by
    interval_cases size
    all_goals decide
  have hpos : 0 < 2 ^ pageShift size := Nat.two_pow_pos _
  have hk : k < 2 ^ 64 := by
    have hle : k * 1 ≤ k * 2 ^ pageShift size := Nat.mul_le_mul_left k hpos
    omega
  have hmul : k * 2 ^ pageShift size < 2 ^ 64 := by omega
  rw [BitVec.toNat_add, BitVec.toNat_mul, BitVec.toNat_ofNat, hbytes, Nat.mod_eq_of_lt hk,
    Nat.mod_eq_of_lt hmul, Nat.mod_eq_of_lt h]

/-- The pages of a table fill the page above. -/
theorem table_pageSizeBytes {size : Nat} (hs : size < 7) :
    BitVec.ofNat 64 (pageTableSize size) * pageSizeBytes size = pageSizeBytes (size + 1) := by
  interval_cases size
  all_goals decide

/-- The page of an entry below is in the user area. -/
theorem InUserArea.below {size k : Nat} {v : Word} (h : InUserArea (size + 1) v) (hs : size < 7)
    (hk : k < pageTableSize size) :
    InUserArea size (v + BitVec.ofNat 64 k * pageSizeBytes size) := by
  have hdvd : 2 ^ 12 ∣ 2 ^ pageShift size := by
    interval_cases size
    all_goals decide
  have htable : pageTableSize size * 2 ^ pageShift size = 2 ^ pageShift (size + 1) := by
    interval_cases size
    all_goals decide
  have hle : (k + 1) * 2 ^ pageShift size ≤ 2 ^ pageShift (size + 1) := by
    rw [← htable]
    exact Nat.mul_le_mul_right _ hk
  rw [Nat.add_mul, Nat.one_mul] at hle
  unfold InUserArea at h ⊢
  have hsum : v.toNat + k * 2 ^ pageShift size < 2 ^ 64 := by
    have hpos : 0 < 2 ^ pageShift size := Nat.two_pow_pos _
    omega
  rw [toNat_add_pages (Nat.le_of_lt hs) hsum]
  obtain ⟨c, hc⟩ := hdvd.mul_left k
  rw [hc] at hle ⊢
  rw [Nat.add_mul_div_left _ _ (Nat.two_pow_pos _), Nat.add_mul, Nat.mul_comm c]
  calc v.toNat / 2 ^ 12 * 2 ^ 12 + 2 ^ 12 * c + 2 ^ pageShift size
      = v.toNat / 2 ^ 12 * 2 ^ 12 + (2 ^ 12 * c + 2 ^ pageShift size) := Nat.add_assoc ..
    _ ≤ v.toNat / 2 ^ 12 * 2 ^ 12 + 2 ^ pageShift (size + 1) := Nat.add_le_add_left hle _
    _ ≤ 2 ^ 40 := h

/-- The label `Next_entry` is reached with what the visit has done. -/
structure Arrives (u : Unmapper μ) (fpage : Fpage) (flush unmapAll : Bool) (pgsize : Nat)
    (w : UnmapWalk) (st : PageTable × μ) (w' : UnmapWalk) (x : Visited μ) : Prop where
  size : w'.size = w.size
  pg : w'.pg = w.pg
  vaddr : w'.vaddr = w.vaddr
  num : w'.num = w.num
  rwx : w'.rwx = x.1
  stack : SameStack w.size w w'
  reaches : Reaches u fpage flush unmapAll pgsize (w, st)
    (u.nextEntry fpage flush unmapAll pgsize w' x.2)

theorem recurseUp_of_ne {n : Nat} (h : w.num ≠ 0) :
    u.recurseUp fpage flush unmapAll n w st = (w, st) := by
  cases n with
  | zero => rfl
  | succ n => rw [recurseUp, if_neg h]

/-- The place after an entry of the same table. -/
def advance (w : UnmapWalk) : UnmapWalk :=
  { w with pg := w.pg.next w.size 1, vaddr := w.vaddr + pageSizeBytes w.size, num := w.num - 1 }

/-- An entry that is not the last one of its table, or has the size of the walk, is followed by the
next one. -/
theorem nextEntry_eq_advance (h : 1 < w.num ∨ w.size = pgsize) :
    u.nextEntry fpage flush unmapAll pgsize w st = (advance w, st) := by
  rcases h with h | rfl
  · exact recurseUp_of_ne (w := advance w) (Nat.sub_ne_zero_of_lt h)
  · rw [nextEntry, Nat.sub_self]
    rfl

theorem Arrives.advance {x : Visited μ} (h : Arrives u fpage flush unmapAll pgsize w st w' x)
    (hnum : 1 < w.num ∨ w.size = pgsize) :
    Reaches u fpage flush unmapAll pgsize (w, st) (advance w', x.2) := by
  have hreach := h.reaches
  rwa [nextEntry_eq_advance (by rwa [h.num, h.size])] at hreach

theorem unmapStep_of_le (hle : w.size ≤ pgsize) (huser : Space.isUserArea w.vaddr = true) :
    u.unmapStep fpage flush unmapAll pgsize w st =
      if (st.1.get w.pg).valid w.size then
        if (st.1.get w.pg).subtree w.size then some (enterSubtree w, st)
        else
          let r := u.unmapLeaf fpage flush unmapAll pgsize w st
          some (u.nextEntry fpage flush unmapAll pgsize r.1 r.2)
      else some (u.nextEntry fpage flush unmapAll pgsize w st) := by
  have hnot : ¬pgsize < w.size := Nat.not_lt.mpr hle
  simp only [unmapStep, huser, hnot, false_and, Bool.not_true, Bool.false_eq_true, if_false]
  cases (st.1.get w.pg).valid w.size with
  | false => rfl
  | true => rfl

/-- The visit of an entry that is a mapping. -/
theorem unmapLeaf_eq : u.unmapLeaf fpage flush unmapAll pgsize w st =
    ({ w with rwx := (u.visitLeaf fpage flush unmapAll pgsize w.size w.pg w.vaddr (w.rwx, st)).1 },
      (u.visitLeaf fpage flush unmapAll pgsize w.size w.pg w.vaddr (w.rwx, st)).2) := by
  simp only [visitLeaf, unmapLeaf]
  split
  · rfl
  · split
    · rfl
    · rfl

/-- An entry without a table below is a mapping or is skipped. -/
theorem visit_of_not_split {size : Nat} {pg : PgPtr} {vaddr : Word} {x : Visited μ}
    (h : ¬(x.2.1.get pg).Split size) : u.visit fpage flush unmapAll pgsize size pg vaddr x =
      if (x.2.1.get pg).valid size then
        u.visitLeaf fpage flush unmapAll pgsize size pg vaddr x
      else x := by
  cases size with
  | zero => rw [visit]
  | succ size =>
    rw [visit]
    split
    · rename_i hv
      rw [if_neg fun hsub => h ⟨hv, hsub⟩]
    · rfl

/-- An entry without a table below is visited in one iteration. -/
theorem arrives_leaf (hle : w.size ≤ pgsize) (hnum : w.num ≠ 0)
    (huser : Space.isUserArea w.vaddr = true) (hsub : ¬(st.1.get w.pg).Split w.size) :
    ∃ w', Arrives u fpage flush unmapAll pgsize w st w'
      (u.visit fpage flush unmapAll pgsize w.size w.pg w.vaddr (w.rwx, st)) := by
  rw [visit_of_not_split hsub]
  have hstep : u.unmapStep fpage flush unmapAll pgsize w st = _ := unmapStep_of_le hle huser
  split
  · rename_i hv
    rw [if_pos hv, if_neg fun h => hsub ⟨hv, h⟩, unmapLeaf_eq] at hstep
    exact ⟨{ w with
      rwx := (u.visitLeaf fpage flush unmapAll pgsize w.size w.pg w.vaddr (w.rwx, st)).1 },
      rfl, rfl, rfl, rfl, rfl, ⟨fun _ _ => rfl, fun _ _ => rfl⟩, .step hnum hstep⟩
  · rename_i hv
    rw [if_neg hv] at hstep
    exact ⟨w, rfl, rfl, rfl, rfl, rfl, .refl, .step hnum hstep⟩

/-- The visit of each entry of a size is known. -/
def Visits (u : Unmapper μ) (fpage : Fpage) (flush unmapAll : Bool) (pgsize size : Nat) : Prop :=
  ∀ w st, w.size = size → w.num ≠ 0 → InUserArea size w.vaddr →
    ∃ w', Arrives u fpage flush unmapAll pgsize w st w'
      (u.visit fpage flush unmapAll pgsize size w.pg w.vaddr (w.rwx, st))

theorem add_pages_succ {size k : Nat} {v : Word} :
    v + pageSizeBytes size + BitVec.ofNat 64 k * pageSizeBytes size =
      v + BitVec.ofNat 64 (k + 1) * pageSizeBytes size := by
  rw [BitVec.add_assoc, BitVec.ofNat_add, BitVec.add_mul, BitVec.add_comm (pageSizeBytes size)]
  congr 2
  exact (BitVec.one_mul _).symm

/-- The entries of a table are visited up to the last one. -/
theorem Visits.range {size : Nat} (hvisit : Visits u fpage flush unmapAll pgsize size)
    (st : PageTable × μ) {n : Nat}
    (hs : w.size = size) (hnum : w.num = n + 1)
    (huser : ∀ k, k ≤ n → InUserArea size (w.vaddr + BitVec.ofNat 64 k * pageSizeBytes size)) :
    ∃ w', w'.size = size ∧ w'.num = 1 ∧
      w'.vaddr = w.vaddr + BitVec.ofNat 64 n * pageSizeBytes size ∧ SameStack size w w' ∧
      let x := visitRange size (u.visit fpage flush unmapAll pgsize size) (n + 1) w.pg w.vaddr
        (w.rwx, st)
      w'.rwx = x.1 ∧ Reaches u fpage flush unmapAll pgsize (w, st)
        (u.nextEntry fpage flush unmapAll pgsize w' x.2) := by
  have hfirst : InUserArea size w.vaddr := by simpa using huser 0 (Nat.zero_le n)
  obtain ⟨w₁, h₁⟩ := hvisit w st hs (by omega) hfirst
  induction n generalizing w st w₁ with
  | zero =>
    refine ⟨w₁, h₁.size.trans hs, h₁.num.trans hnum, ?_, hs ▸ h₁.stack, h₁.rwx, h₁.reaches⟩
    simpa using h₁.vaddr
  | succ n ih =>
    have hstep := h₁.advance (.inl (by omega))
    have hsize : (advance w₁).size = size := h₁.size.trans hs
    have hnum₁ : (advance w₁).num = n + 1 := by
      rw [advance, h₁.num, hnum, Nat.add_sub_cancel]
    have hvaddr : (advance w₁).vaddr = w.vaddr + pageSizeBytes size := by
      rw [advance, h₁.vaddr, h₁.size, hs]
    have hpg : (advance w₁).pg = w.pg.next size 1 := by
      rw [advance, h₁.pg, h₁.size, hs]
    have huser₁ : ∀ k, k ≤ n →
        InUserArea size ((advance w₁).vaddr + BitVec.ofNat 64 k * pageSizeBytes size) := by
      intro k hk
      rw [hvaddr, add_pages_succ]
      exact huser (k + 1) (Nat.succ_le_succ hk)
    have hfirst₁ : InUserArea size (advance w₁).vaddr := by simpa using huser₁ 0 (Nat.zero_le n)
    obtain ⟨w₂, h₂⟩ := hvisit (advance w₁) _ hsize (by omega) hfirst₁
    obtain ⟨w', hs', hnum', hv', hstack, hrwx, hreach⟩ := ih _ hsize hnum₁ huser₁ hfirst₁ w₂ h₂
    have hrwx₁ : (advance w₁).rwx = _ := h₁.rwx
    rw [hpg, hvaddr, hrwx₁] at hrwx hreach
    refine ⟨w', hs', hnum', ?_, ?_, hrwx, hstep.trans hreach⟩
    · rw [hv', hvaddr, add_pages_succ]
    · have hstack₁ : SameStack size w (advance w₁) := hs ▸ ⟨h₁.stack.rPg, h₁.stack.rNum⟩
      exact hstack₁.trans hstack

/-- After the last entry of a table the walk is behind the entry above. -/
theorem nextEntry_of_last (hlt : w.size < pgsize) (hnum : w.num = 1) :
    u.nextEntry fpage flush unmapAll pgsize w st =
      u.nextEntry fpage flush unmapAll pgsize
        { w with
          size := w.size + 1, pg := w.rPg w.size, num := w.rNum w.size + 1
          vaddr := w.vaddr + pageSizeBytes w.size - pageSizeBytes (w.size + 1) }
        (u.leaveSubtree fpage flush unmapAll (w.size + 1) (w.rPg w.size)
          (w.vaddr + pageSizeBytes w.size - pageSizeBytes (w.size + 1)) (w.rwx, st)).2 := by
  obtain ⟨k, hk⟩ := Nat.exists_eq_add_of_lt hlt
  have hup : pgsize - w.size = k + 1 := by omega
  have hup' : pgsize - (w.size + 1) = k := by omega
  obtain ⟨pt, m⟩ := st
  simp only [nextEntry, hup, hup', recurseUp, hnum, Nat.sub_self, if_true, leaveSubtree,
    BitVec.sub_add_cancel, Nat.add_sub_cancel]
  congr 1
  split
  · rfl
  · rfl

theorem subtree_zero (e : Pgent) : e.subtree 0 = false := by
  simp [Pgent.subtree, PgSize.size4g, PgSize.size4m]

/-- The table below an entry is visited, and then the entry is left. -/
theorem Visits.subtree {size : Nat} (ih : Visits u fpage flush unmapAll pgsize size)
    (hsize : size < pgsize) (h7 : pgsize ≤ 7) (hs : w.size = size + 1) (hnum : w.num ≠ 0)
    (huser : InUserArea (size + 1) w.vaddr) (hsplit : (st.1.get w.pg).Split (size + 1)) :
    ∃ w', Arrives u fpage flush unmapAll pgsize w st w'
      (u.visit fpage flush unmapAll pgsize (size + 1) w.pg w.vaddr (w.rwx, st)) := by
  have hstep : u.unmapStep fpage flush unmapAll pgsize w st = some (enterSubtree w, st) := by
    have heq : u.unmapStep fpage flush unmapAll pgsize w st = _ :=
      unmapStep_of_le (by omega) (huser.isUserArea (by omega))
    rw [heq, hs, if_pos hsplit.1, if_pos hsplit.2]
  obtain ⟨n, hn⟩ : ∃ n, pageTableSize size = n + 1 :=
    Nat.exists_eq_succ_of_ne_zero (Nat.two_pow_pos _).ne'
  have hsize₁ : (enterSubtree w).size = size := by rw [enterSubtree, hs, Nat.add_sub_cancel]
  have hnum₁ : (enterSubtree w).num = n + 1 := by
    rw [enterSubtree, hs, Nat.add_sub_cancel, hn]
  have hpg₁ : (enterSubtree w).pg = w.pg.subtree (size + 1) := by rw [enterSubtree, hs]
  obtain ⟨w', hs', hnum', hv', hstack, hrwx, hreach⟩ := ih.range st hsize₁ hnum₁
    fun k hk => huser.below (by omega) (by omega)
  rw [hpg₁] at hrwx hreach
  obtain ⟨x, hx⟩ : ∃ x, x = visitRange size (u.visit fpage flush unmapAll pgsize size) (n + 1)
      (w.pg.subtree (size + 1)) w.vaddr (w.rwx, st) := ⟨_, rfl⟩
  have hrwx : w'.rwx = x.1 := hx ▸ hrwx
  have hreach : Reaches u fpage flush unmapAll pgsize (enterSubtree w, st)
      (u.nextEntry fpage flush unmapAll pgsize w' x.2) := hx ▸ hreach
  have hvisit : u.visit fpage flush unmapAll pgsize (size + 1) w.pg w.vaddr (w.rwx, st) =
      u.leaveSubtree fpage flush unmapAll (size + 1) w.pg w.vaddr x := by
    rw [visit, if_pos hsplit.1, if_pos hsplit.2, hn, hx]
  have hkeep : (u.leaveSubtree fpage flush unmapAll (size + 1) w.pg w.vaddr x).1 = x.1 := by
    rw [leaveSubtree]
    split
    · rfl
    · rfl
  have hrPg : w'.rPg size = w.pg := by
    rw [hstack.rPg size le_rfl, enterSubtree, hs, Nat.add_sub_cancel]
    exact Function.update_self ..
  have hrNum : w'.rNum size + 1 = w.num := by
    have htop : (enterSubtree w).rNum size = w.num - 1 := by
      rw [enterSubtree, hs, Nat.add_sub_cancel]
      exact Function.update_self ..
    rw [hstack.rNum size le_rfl, htop]
    omega
  have hvaddr : w'.vaddr + pageSizeBytes size - pageSizeBytes (size + 1) = w.vaddr := by
    rw [hv', ← table_pageSizeBytes (by omega), hn, BitVec.ofNat_add, BitVec.add_mul,
      BitVec.add_assoc, BitVec.one_mul]
    exact BitVec.add_sub_cancel ..
  rw [nextEntry_of_last (by omega) hnum', hs', hrPg, hrNum, hvaddr, hrwx] at hreach
  rw [hvisit]
  refine ⟨⟨size + 1, w.pg, w.vaddr, w.num, x.1, w'.rPg, w'.rNum⟩, hs.symm, rfl, rfl, rfl,
    hkeep.symm, ?_, (Reaches.step hnum hstep).trans hreach⟩
  · rw [hs]
    constructor
    · intro s hle
      rw [hstack.rPg s (by omega), enterSubtree, hs, Nat.add_sub_cancel]
      exact Function.update_of_ne (by omega) ..
    · intro s hle
      rw [hstack.rNum s (by omega), enterSubtree, hs, Nat.add_sub_cancel]
      exact Function.update_of_ne (by omega) ..

/-- What the walk does at an entry is the visit of the entry. -/
theorem visits {size : Nat} (hsize : size ≤ pgsize) (h7 : pgsize ≤ 7) :
    Visits u fpage flush unmapAll pgsize size := by
  induction size with
  | zero =>
    intro w st hs hnum huser
    have hsub : ¬(st.1.get w.pg).Split w.size := by
      rintro ⟨-, hsub⟩
      rw [hs, subtree_zero] at hsub
      cases hsub
    exact hs ▸ arrives_leaf (hs ▸ hsize) hnum (huser.isUserArea (by omega)) hsub
  | succ size ih =>
    intro w st hs hnum huser
    by_cases hsub : (st.1.get w.pg).Split w.size
    · rw [hs] at hsub
      exact (ih (by omega)).subtree hsize h7 hs hnum huser hsub
    · exact hs ▸ arrives_leaf (hs ▸ hsize) hnum (huser.isUserArea (by omega)) hsub

/-! ## The whole walk -/

/-- The entries of the page size of the walk are visited one after the other. -/
theorem Visits.top (hvisit : Visits u fpage flush unmapAll pgsize pgsize) (st : PageTable × μ)
    {n : Nat}
    (hs : w.size = pgsize) (hnum : n ≤ w.num)
    (huser : ∀ k, k < n → InUserArea pgsize (w.vaddr + BitVec.ofNat 64 k * pageSizeBytes pgsize)) :
    ∃ w', w'.num = w.num - n ∧ w'.vaddr = w.vaddr + BitVec.ofNat 64 n * pageSizeBytes pgsize ∧
      let x := visitRange pgsize (u.visit fpage flush unmapAll pgsize pgsize) n w.pg w.vaddr
        (w.rwx, st)
      w'.rwx = x.1 ∧ Reaches u fpage flush unmapAll pgsize (w, st) (w', x.2) := by
  induction n generalizing w st with
  | zero => exact ⟨w, rfl, by simp, rfl, .refl⟩
  | succ n ih =>
    have hfirst : InUserArea pgsize w.vaddr := by simpa using huser 0 (Nat.succ_pos n)
    obtain ⟨w₁, h₁⟩ := hvisit w st hs (by omega) hfirst
    have hstep := h₁.advance (.inr hs)
    have hsize : (advance w₁).size = pgsize := h₁.size.trans hs
    have hnum₁ : (advance w₁).num = w.num - 1 := by rw [advance, h₁.num]
    have hvaddr : (advance w₁).vaddr = w.vaddr + pageSizeBytes pgsize := by
      rw [advance, h₁.vaddr, h₁.size, hs]
    have hpg : (advance w₁).pg = w.pg.next pgsize 1 := by
      rw [advance, h₁.pg, h₁.size, hs]
    have hrwx₁ : (advance w₁).rwx = _ := h₁.rwx
    have huser₁ : ∀ k, k < n →
        InUserArea pgsize ((advance w₁).vaddr + BitVec.ofNat 64 k * pageSizeBytes pgsize) := by
      intro k hk
      rw [hvaddr, add_pages_succ]
      exact huser (k + 1) (Nat.succ_lt_succ hk)
    obtain ⟨w', hnum', hv', hrwx, hreach⟩ := ih _ hsize (by omega) huser₁
    rw [hpg, hvaddr, hrwx₁] at hrwx hreach
    refine ⟨w', ?_, ?_, hrwx, hstep.trans hreach⟩
    · rw [hnum', hnum₁, Nat.sub_sub, Nat.add_comm]
    · rw [hv', hvaddr, add_pages_succ]

/-- The walk is over. -/
def Ends (u : Unmapper μ) (fpage : Fpage) (flush unmapAll : Bool) (pgsize : Nat) (w : UnmapWalk)
    (st : PageTable × μ) (x : Visited μ) : Prop :=
  ∃ n, ∀ fuel, u.unmapLoop fpage flush unmapAll pgsize (n + fuel) w st = some x

theorem Ends.of_reaches {x : Visited μ} (h : Ends u fpage flush unmapAll pgsize w' st' x)
    (hreach : Reaches u fpage flush unmapAll pgsize (w, st) (w', st')) :
    Ends u fpage flush unmapAll pgsize w st x := by
  obtain ⟨n, hn⟩ := h
  obtain ⟨k, hk⟩ := hreach
  exact ⟨k + n, fun fuel => by rw [Nat.add_assoc, hk, hn]⟩

theorem ends_of_stop
    (h : w.num = 0 ∨ u.unmapStep fpage flush unmapAll pgsize w st = none) :
    Ends u fpage flush unmapAll pgsize w st (w.rwx, st) := by
  refine ⟨1, fun fuel => ?_⟩
  rw [Nat.add_comm, unmapLoop]
  split
  · rfl
  · rename_i hnum
    rw [h.resolve_left hnum]

/-- The walk ends after its last entry, or at the end of the user area. -/
theorem ends_range (h7 : pgsize ≤ 7) {n : Nat} (hs : w.size = pgsize) (hnum : n ≤ w.num)
    (huser : ∀ k, k < n → InUserArea pgsize (w.vaddr + BitVec.ofNat 64 k * pageSizeBytes pgsize))
    (hend : n = w.num ∨
      Space.isUserArea (w.vaddr + BitVec.ofNat 64 n * pageSizeBytes pgsize) = false) :
    Ends u fpage flush unmapAll pgsize w st
      (visitRange pgsize (u.visit fpage flush unmapAll pgsize pgsize) n w.pg w.vaddr
        (w.rwx, st)) := by
  obtain ⟨w', hnum', hv', hrwx, hreach⟩ := (visits le_rfl h7).top st hs hnum huser
  refine Ends.of_reaches ?_ hreach
  have hstop : ∀ st, w'.num = 0 ∨ u.unmapStep fpage flush unmapAll pgsize w' st = none := by
    intro st
    rcases hend with rfl | hend
    · exact .inl (by omega)
    · rw [← hv'] at hend
      refine .inr ?_
      simp only [unmapStep, hend]
      rfl
  have hends := ends_of_stop (hstop
    (visitRange pgsize (u.visit fpage flush unmapAll pgsize pgsize) n w.pg w.vaddr (w.rwx, st)).2)
  rwa [hrwx] at hends

/-- The walk goes down as long as the entries for its address are split. -/
theorem reaches_down {a : Word} {t : Nat} (ht : pgsize ≤ t) (huser : Space.isUserArea a = true)
    (hnum : w.num ≠ 0) {k : Nat} (h7 : t + k ≤ 7) (hs : w.size = t + k)
    (hpg : w.pg = PageTable.entryPtr a (t + k)) (hv : w.vaddr = a)
    (hw : ∀ r, t < r → r ≤ t + k → (st.1.get (PageTable.entryPtr a r)).Split r) :
    Reaches u fpage flush unmapAll pgsize (w, st)
      ({ w with size := t, pg := PageTable.entryPtr a t }, st) := by
  induction k generalizing w with
  | zero =>
    have heq : { w with size := t, pg := PageTable.entryPtr a t } = w := by
      cases w
      simp_all
    rw [heq]
    exact .refl
  | succ k ih =>
    obtain ⟨hval, hsub⟩ := hw (t + (k + 1)) (by omega) le_rfl
    have hstep : u.unmapStep fpage flush unmapAll pgsize w st = some (descend w, st) := by
      have hlt : pgsize < w.size := by omega
      rw [← hpg, ← hs] at hval hsub
      simp only [unmapStep, hv, huser, hlt, hval, hsub, Bool.not_true, Bool.false_eq_true, if_false,
        and_false, and_true, if_true]
    have hdown : (descend w).pg = PageTable.entryPtr a (t + k) := by
      have hdown := PageTable.down_entryPtr a (show t + k < 7 by omega)
      rw [descend, hs, hv, hpg]
      exact hdown
    have hsize : (descend w).size = t + k := by
      rw [descend, hs]
      rfl
    exact (Reaches.step hnum hstep).trans
      (ih hnum (by omega) hsize hdown hv fun r hr hle => hw r hr (by omega))

end Unmapper

end L4Thread
