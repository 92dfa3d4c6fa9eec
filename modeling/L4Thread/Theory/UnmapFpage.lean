import L4Thread.Theory.MapRange
import L4Thread.Theory.UnmapRegion

/-!
# Flushing a flexpage

A flush of a flexpage with all rights ends. In the part of the flexpage that is in the user area it
leaves only pages mapped that are not mappable, it passes each other leaf to `mdb_flush` once, and it
keeps the translation of the other addresses, but for a group of pages whose first entry is removed.
-/

namespace L4Thread

namespace Fpage

variable {f : Fpage} {v : Word}

/-- The address is one of the flexpage. -/
def Includes (f : Fpage) (v : Word) : Prop :=
  f.first ≤ v.toNat ∧ v.toNat < f.first + 2 ^ f.getSizeLog2

/-- The low bits that the walk starts with: those of the word of a complete flexpage. -/
def lowBits (f : Fpage) : Nat := if f.isCompleteFpage then f.raw.toNat else 0

theorem lowBits_lt : f.lowBits < 2 ^ 12 := by
  rw [lowBits]
  split
  · rename_i hc
    obtain ⟨-, hbase⟩ := Bool.and_eq_true_iff.mp hc
    have hzero : f.getBase = 0 := beq_iff_eq.mp hbase
    have hnat : f.raw.toNat / 2 ^ 10 * 2 ^ 10 = 0 := by
      have htoNat := congrArg BitVec.toNat hzero
      rwa [toNat_getBase] at htoNat
    omega
  · decide

/-- The address that the walk starts from. -/
theorem toNat_addressWrapped (h : 12 ≤ f.getSizeLog2) :
    (f.addressWrapped f.getSizeLog2).toNat = f.first + f.lowBits := by
  by_cases hc : f.isCompleteFpage = true
  · have hsize : f.getSizeLog2 = 64 := if_pos hc
    have hmask : ~~~(((1 : Word) <<< (64 % 64)) - 1) = BitVec.allOnes 64 := by decide
    have hraw : f.addressWrapped 64 = f.raw := by
      rw [addressWrapped, hmask, BitVec.and_allOnes]
    rw [hsize, hraw, first, if_pos hc, lowBits, if_pos hc, Nat.zero_add]
  · have hlt := getSizeLog2_lt (Bool.eq_false_iff.mpr hc)
    rw [lowBits, if_neg hc, Nat.add_zero, first_eq (by omega), addressWrapped, Nat.mod_eq_of_lt hlt,
      Mask.one_shiftLeft_sub_one hlt, Mask.toNat_and_not_low (Nat.le_of_lt hlt)]

theorem first_aligned (h : 12 ≤ f.getSizeLog2) : 2 ^ f.getSizeLog2 ∣ f.first := by
  rw [first_eq (by omega)]
  exact Nat.dvd_mul_left _ _

end Fpage

namespace Unmapper

open PageTable

variable {μ : Type} {u : Unmapper μ} {fpage : Fpage} {lo s n : Nat} {a v : Word}

/-! ## The row of a flexpage -/

/-- Pages from an aligned address on are a row. -/
theorem row_of_le {A : Nat} (hlo : lo < 2 ^ 12) (hs : s ≤ 7) (ha : a.toNat = A + lo)
    (hA : 2 ^ pageShift s ∣ A) (hle : A + n * 2 ^ pageShift s ≤ 2 ^ 40)
    (hidx : s < 7 → ∀ k, k < n → pageTableIndex s a + k < pageTableSize s) : Row lo s a n := by
  have hshift : 2 ^ 12 ≤ 2 ^ pageShift s := Nat.pow_le_pow_right (by decide) (le_pageShift s hs)
  have hfits : ∀ {k}, k < n → a.toNat + k * 2 ^ pageShift s < 2 ^ 40 := by
    intro k hk
    have hmul : (k + 1) * 2 ^ pageShift s ≤ n * 2 ^ pageShift s := Nat.mul_le_mul_right _ hk
    rw [Nat.add_mul, Nat.one_mul] at hmul
    omega
  have hfits' : ∀ {k}, k < n → a.toNat + k * 2 ^ pageShift s < 2 ^ 41 :=
    fun hk => Nat.lt_trans (hfits hk) (by decide)
  refine ⟨fun {k} hk => ⟨?_, ?_⟩, fun hn => hfits' (Nat.sub_one_lt hn), fun {k} hk => ?_⟩
  · obtain ⟨c, rfl⟩ := hA
    rw [toNat_addPages hs (hfits' hk), ha, Nat.add_mul_mod_self_right, Nat.mul_add_mod,
      Nat.mod_eq_of_lt (Nat.lt_of_lt_of_le hlo hshift)]
  · rw [toNat_addPages hs (hfits' hk)]
    exact hfits hk
  · exact entryPtr_addPages hs (fun h7 => hidx h7 k hk) (hfits' hk)

/-- The addresses of a row. -/
theorem inRow_iff {A : Nat} (hlo : lo < 2 ^ 12) (hs : s ≤ 7) (ha : a.toNat = A + lo)
    (hA : 2 ^ pageShift s ∣ A) (hle : A + n * 2 ^ pageShift s ≤ 2 ^ 40) (hv : v.toNat < 2 ^ 41) :
    InRow s a n v ↔ A ≤ v.toNat ∧ v.toNat < A + n * 2 ^ pageShift s := by
  have hshift : 2 ^ 12 ≤ 2 ^ pageShift s := Nat.pow_le_pow_right (by decide) (le_pageShift s hs)
  have hpos : 0 < 2 ^ pageShift s := Nat.two_pow_pos _
  obtain ⟨c, rfl⟩ := hA
  have hdiv : a.toNat / 2 ^ pageShift s = c := by
    rw [ha, Nat.mul_add_div hpos, Nat.div_eq_of_lt (Nat.lt_of_lt_of_le hlo hshift), Nat.add_zero]
  have hpage : ∀ {k}, k < n → (SamePage s (addPages s a k) v ↔ v.toNat / 2 ^ pageShift s = c + k) := by
    intro k hk
    have hmul : (k + 1) * 2 ^ pageShift s ≤ n * 2 ^ pageShift s := Nat.mul_le_mul_right _ hk
    rw [Nat.add_mul, Nat.one_mul] at hmul
    rw [SamePage, div_addPages hs (by omega), Nat.mod_eq_of_lt hv, hdiv]
  have hbounds : (2 ^ pageShift s * c ≤ v.toNat ∧ v.toNat < 2 ^ pageShift s * c +
      n * 2 ^ pageShift s) ↔ c ≤ v.toNat / 2 ^ pageShift s ∧ v.toNat / 2 ^ pageShift s < c + n := by
    rw [Nat.le_div_iff_mul_le hpos, Nat.div_lt_iff_lt_mul hpos, Nat.add_mul, Nat.mul_comm c]
  rw [hbounds]
  constructor
  · rintro ⟨k, hk, hkpage⟩
    rw [hpage hk] at hkpage
    omega
  · rintro ⟨h1, h2⟩
    refine ⟨v.toNat / 2 ^ pageShift s - c, by omega, (hpage (by omega)).mpr (by omega)⟩

theorem pageShift_mono : ∀ t ≤ 7, ∀ r ≤ t, pageShift r ≤ pageShift t := by decide

/-- The page size of the walk. -/
def walkPgsize (f : Fpage) : Nat :=
  findPgsize (min f.getSizeLog2 (pageShift (PgSize.sizeMax + 1))) PgSize.sizeMax

theorem findPgsize_lt {num : Nat} (size : Nat) (h : findPgsize num size < size) :
    num < pageShift (findPgsize num size + 1) := by
  induction size with
  | zero => exact absurd h (Nat.not_lt_zero _)
  | succ size ih =>
    rw [findPgsize] at h ⊢
    split
    · rename_i hlt
      rw [if_pos hlt] at h
      rcases Nat.lt_or_eq_of_le (Nat.le_of_lt_succ h) with hsize | heq
      · exact ih hsize
      · rwa [heq]
    · rename_i hlt
      rw [if_neg hlt] at h
      exact absurd h (Nat.lt_irrefl _)

theorem walkPgsize_le : walkPgsize fpage ≤ 7 := findPgsize_le_size _

theorem lt_walkPgsize (h : walkPgsize fpage < 7) :
    min fpage.getSizeLog2 41 < pageShift (walkPgsize fpage + 1) := findPgsize_lt 7 h

/-- Where the pages of a flexpage that is smaller than a table are in the table. -/
theorem index_add_lt {A M k : Nat} (hs : s < 7) (hlo : lo < 2 ^ 12) (ha : a.toNat = A + lo)
    (hA : 2 ^ M ∣ A) (hM : M < pageShift (s + 1)) (hk : (k + 1) * 2 ^ pageShift s ≤ 2 ^ M) :
    pageTableIndex s a + k < pageTableSize s := by
  have hdvd : 2 ^ M ∣ 2 ^ pageShift (s + 1) := Nat.pow_dvd_pow 2 (Nat.le_of_lt hM)
  have hblock : A % 2 ^ pageShift (s + 1) + 2 ^ M ≤ 2 ^ pageShift (s + 1) := by
    obtain ⟨c, hc⟩ := (Nat.dvd_mod_iff hdvd).mpr hA
    obtain ⟨d, hd⟩ := hdvd
    have hlt := Nat.mod_lt A (Nat.two_pow_pos (pageShift (s + 1)))
    rw [hc, hd] at hlt
    rw [hc, hd]
    calc 2 ^ M * c + 2 ^ M = 2 ^ M * (c + 1) := (Nat.mul_succ ..).symm
      _ ≤ 2 ^ M * d := Nat.mul_le_mul_left _ (Nat.lt_of_mul_lt_mul_left hlt)
  unfold pageTableIndex pageTableSize
  rw [ha]
  generalize 2 ^ M = m at hblock hk
  interval_cases s
  all_goals
    simp only [pageShift, hwPgshifts, List.getD_cons_zero, List.getD_cons_succ] at hblock hk ⊢
    omega

/-- The row of pages that is visited: the part of the flexpage that is in the user area. -/
theorem exists_row (h12 : 12 ≤ fpage.getSizeLog2) (hfirst : fpage.first < 2 ^ 40) :
    ∃ n, n ≤ 2 ^ (min fpage.getSizeLog2 (pageShift (PgSize.sizeMax + 1)) -
        pageShift (walkPgsize fpage)) ∧
      Row fpage.lowBits (walkPgsize fpage) (fpage.addressWrapped fpage.getSizeLog2) n ∧
      (n = 2 ^ (min fpage.getSizeLog2 (pageShift (PgSize.sizeMax + 1)) -
          pageShift (walkPgsize fpage)) ∨
        Space.isUserArea (addPages (walkPgsize fpage) (fpage.addressWrapped fpage.getSizeLog2) n) =
          false) ∧
      ∀ {v}, v.toNat < 2 ^ 41 →
        (InRow (walkPgsize fpage) (fpage.addressWrapped fpage.getSizeLog2) n v ↔
          fpage.Includes v ∧ v.toNat < 2 ^ 40) := by
  have hmax : pageShift (PgSize.sizeMax + 1) = 41 := rfl
  have hlo := fpage.lowBits_lt
  have ha := Fpage.toNat_addressWrapped h12
  have hal := Fpage.first_aligned h12
  have hs : walkPgsize fpage ≤ 7 := walkPgsize_le
  have hle : pageShift (walkPgsize fpage) ≤ min fpage.getSizeLog2 41 :=
    findPgsize_le (show 12 ≤ _ by omega) _
  rw [hmax]
  rcases Nat.lt_or_ge 40 fpage.getSizeLog2 with hL | hL
  · -- the flexpage has the whole user area
    have hzero : fpage.first = 0 := by
      have hdvd : 2 ^ 40 ∣ fpage.first := (Nat.pow_dvd_pow 2 (Nat.le_of_lt hL)).trans hal
      exact Nat.eq_zero_of_dvd_of_lt hdvd hfirst
    have hmin : min fpage.getSizeLog2 41 = 41 := by omega
    have hp : walkPgsize fpage = 7 := by
      rw [walkPgsize, hmax, hmin]
      rfl
    have hpow : 2 ^ 41 ≤ 2 ^ fpage.getSizeLog2 := Nat.pow_le_pow_right (by decide) hL
    rw [hzero] at ha
    rw [hp, hmin]
    refine ⟨256, by decide, row_of_le hlo le_rfl ha (Nat.dvd_zero _) (by decide) fun h => ?_, ?_,
      fun {v} hv => ?_⟩
    · exact absurd h (Nat.lt_irrefl 7)
    · have hfits : (fpage.addressWrapped fpage.getSizeLog2).toNat + 256 * 2 ^ pageShift 7 < 2 ^ 41 := by
        rw [ha]
        change 0 + fpage.lowBits + 256 * 2 ^ 32 < 2 ^ 41
        omega
      refine .inr (Bool.eq_false_iff.mpr fun huser => ?_)
      rw [Space.isUserArea_iff, toNat_addPages le_rfl hfits, ha] at huser
      change 0 + fpage.lowBits + 256 * 2 ^ 32 < 2 ^ 40 at huser
      omega
    · rw [inRow_iff hlo le_rfl ha (Nat.dvd_zero _) (by decide) hv, Fpage.Includes, hzero]
      change 0 ≤ v.toNat ∧ v.toNat < 0 + 256 * 2 ^ 32 ↔ _
      omega
  · -- the flexpage is in the user area
    have hmin : min fpage.getSizeLog2 41 = fpage.getSizeLog2 := by omega
    rw [hmin] at hle ⊢
    have hdvd : 2 ^ pageShift (walkPgsize fpage) ∣ fpage.first := (Nat.pow_dvd_pow 2 hle).trans hal
    have hpages : 2 ^ (fpage.getSizeLog2 - pageShift (walkPgsize fpage)) *
        2 ^ pageShift (walkPgsize fpage) = 2 ^ fpage.getSizeLog2 := by
      rw [← Nat.pow_add, Nat.sub_add_cancel hle]
    have hend : fpage.first + 2 ^ fpage.getSizeLog2 ≤ 2 ^ 40 := by
      obtain ⟨c, hc⟩ := hal
      obtain ⟨d, hd⟩ := Nat.pow_dvd_pow 2 hL
      rw [hc, hd] at hfirst
      rw [hc, hd]
      calc 2 ^ fpage.getSizeLog2 * c + 2 ^ fpage.getSizeLog2
          = 2 ^ fpage.getSizeLog2 * (c + 1) := (Nat.mul_succ ..).symm
        _ ≤ 2 ^ fpage.getSizeLog2 * d := Nat.mul_le_mul_left _ (Nat.lt_of_mul_lt_mul_left hfirst)
    have hrow : fpage.first + 2 ^ (fpage.getSizeLog2 - pageShift (walkPgsize fpage)) *
        2 ^ pageShift (walkPgsize fpage) ≤ 2 ^ 40 := by rwa [hpages]
    refine ⟨_, le_rfl, row_of_le hlo hs ha hdvd hrow fun h7 k hk => ?_, .inl rfl, fun {v} hv => ?_⟩
    · have hlt := lt_walkPgsize h7
      rw [hmin] at hlt
      refine index_add_lt h7 hlo ha hal hlt ?_
      rw [← hpages]
      exact Nat.mul_le_mul_right _ hk
    · rw [inRow_iff hlo hs ha hdvd hrow hv, hpages, Fpage.Includes]
      omega

/-- The addresses of a flexpage that is smaller than a table are in one table. -/
theorem samePage_of_includes {w : Word} (h12 : 12 ≤ fpage.getSizeLog2) (h7 : walkPgsize fpage < 7)
    (hv : fpage.Includes v) (hw : fpage.Includes w) (hv' : v.toNat < 2 ^ 41)
    (hw' : w.toNat < 2 ^ 41) : SamePage (walkPgsize fpage + 1) v w := by
  have hle : pageShift (walkPgsize fpage + 1) ≤ 32 := by
    have hmono : ∀ s, s < 7 → pageShift (s + 1) ≤ 32 := by decide
    exact hmono _ h7
  have hlt := lt_walkPgsize h7
  have hsize : fpage.getSizeLog2 ≤ pageShift (walkPgsize fpage + 1) := by omega
  obtain ⟨c, hc⟩ := Nat.exists_eq_add_of_le hsize
  obtain ⟨d, hd⟩ := Fpage.first_aligned h12
  have hblock : ∀ {x : Word}, fpage.Includes x → x.toNat / 2 ^ fpage.getSizeLog2 = d := by
    intro x hx
    obtain ⟨h1, h2⟩ := hx
    rw [hd] at h1 h2
    exact Nat.div_eq_of_lt_le (by rwa [Nat.mul_comm]) (by rwa [Nat.mul_comm, Nat.mul_succ])
  rw [SamePage, Nat.mod_eq_of_lt hv', Nat.mod_eq_of_lt hw', hc, Nat.pow_add,
    ← Nat.div_div_eq_div_mul, ← Nat.div_div_eq_div_mul, hblock hv, hblock hw]

/-! ## The walk -/

theorem AtPage.inUserArea (hlo : lo < 2 ^ 12) (hs : s ≤ 7) (h : AtPage lo s a) :
    InUserArea s a := by
  have hlow := h.low
  have hlt := h.lt
  unfold InUserArea
  interval_cases s
  all_goals
    simp only [pageShift, hwPgshifts, List.getD_cons_zero, List.getD_cons_succ] at hlow ⊢
    omega

section Run

variable {flush unmapAll : Bool} {st : PageTable × μ} {x : Visited μ}

theorem unmapFpage_of_ends (h12 : 12 ≤ fpage.getSizeLog2)
    (h : Ends u fpage flush unmapAll (walkPgsize fpage)
      (startWalk fpage (min fpage.getSizeLog2 (pageShift (PgSize.sizeMax + 1))) (walkPgsize fpage))
      st x) :
    ∃ fuel, ∀ n, u.unmapFpage fpage flush unmapAll (fuel + n) st = some (fpage.setRwx x.1, x.2) := by
  obtain ⟨fuel, hfuel⟩ := h
  have hsize : ¬fpage.getSizeLog2 < pageShift 0 := Nat.not_lt.mpr h12
  refine ⟨fuel, fun n => ?_⟩
  have hloop := hfuel n
  rw [walkPgsize] at hloop
  rw [unmapFpage, if_neg hsize]
  dsimp only
  rw [hloop]
  rfl

/-- Where the walk goes down to. -/
theorem exists_walks (pt : PageTable) (a : Word) {k : Nat} (hs : s + k = 7) :
    pt.Walks a s ∨ ∃ t, s < t ∧ t ≤ 7 ∧ pt.Walks a t ∧ ¬(pt.get (entryPtr a t)).Split t := by
  induction k generalizing s with
  | zero => exact .inl fun r hr hr7 => by omega
  | succ k ih =>
    rcases ih (s := s + 1) (by omega) with hw | ⟨t, ht, ht7, hw, hsplit⟩
    · by_cases hsplit : (pt.get (entryPtr a (s + 1))).Split (s + 1)
      · refine .inl fun r hr hr7 => ?_
        rcases Nat.lt_or_eq_of_le (Nat.succ_le_of_lt hr) with hlt | rfl
        · exact hw r hlt hr7
        · exact hsplit
      · exact .inr ⟨s + 1, Nat.lt_succ_self s, by omega, hw, hsplit⟩
    · exact .inr ⟨t, by omega, ht7, hw, hsplit⟩

end Run

/-! ## The result -/

variable {pt pt' : PageTable} {calls : List FlushArgs}
  {R : Word → Prop}

/-- The address is in a group of pages that is lost with its first entry, one of the flexpage. -/
def InLostGroup (pt : PageTable) (f : Fpage) (v : Word) : Prop :=
  ∃ w, Space.isUserArea w = true ∧ f.Includes w ∧
    entryPtr v (walkPgsize f + 1) = entryPtr w (walkPgsize f) ∧
    TakesGroup (pt.get (entryPtr w (walkPgsize f))) (walkPgsize f)

/-- A flexpage was flushed completely, with one call of `mdb_flush` for each mappable leaf, and
nothing else was. -/
structure FlushedFpage (u : Unmapper μ) (f : Fpage) (pt pt' : PageTable) (calls : List FlushArgs) :
    Prop where
  gone : ∀ {v p r}, Space.isUserArea v = true → f.Includes v → pt'.lookupMapping v = some (p, r) →
    pt.lookupMapping v = some (p, r) ∧ u.space.isMappable (firstAddress f.lowBits r v) = false
  mem : ∀ {k}, k ∈ calls.map flushKey ↔ ∃ v p r, Space.isUserArea v = true ∧ f.Includes v ∧
    pt.lookupMapping v = some (p, r) ∧ k = (p, r, firstAddress f.lowBits r v) ∧
      u.space.isMappable (firstAddress f.lowBits r v) = true
  nodup : (calls.map flushKey).Nodup
  frame : ∀ {v}, v.toNat < 2 ^ 41 → ¬f.Includes v → ¬InLostGroup pt f v → pt'.view v = pt.view v

/-- Nothing is done where nothing is mapped. -/
theorem flushedFpage_of_none
    (h : ∀ v, Space.isUserArea v = true → fpage.Includes v → pt.lookupMapping v = none) :
    FlushedFpage u fpage pt pt [] where
  gone huser hin hlook := by
    cases (h _ huser hin).symm.trans hlook
  mem := by
    refine ⟨nofun, ?_⟩
    rintro ⟨v, p, r, huser, hin, hlook, -⟩
    cases (h v huser hin).symm.trans hlook
  nodup := .nil
  frame _ _ _ := rfl

theorem lookupMapping_eq (hw : pt.Walks v s) (hs : s ≤ 7) :
    pt.lookupMapping v = pt.lookupFrom v s (entryPtr v s) := by
  rw [lookupMapping, rootPtr_eq]
  exact lookupFrom_of_walks hw hs le_rfl

/-- The pages of the flexpage are those of the walk for its first address. -/
theorem walks_of_includes {t : Nat} (h12 : 12 ≤ fpage.getSizeLog2) (ha : fpage.Includes a)
    (ha' : a.toNat < 2 ^ 41) (ht : walkPgsize fpage ≤ t) (hw : pt.Walks a t) (hv : fpage.Includes v)
    (hv' : v.toNat < 2 ^ 41) : pt.Walks v t := by
  intro r hr hr7
  have hlt : walkPgsize fpage < r := Nat.lt_of_le_of_lt ht hr
  have hpage := samePage_of_includes h12 (Nat.lt_of_lt_of_le hlt hr7) ha hv ha' hv'
  rw [entryPtr_congr hpage hlt hr7]
  exact hw r hr hr7

/-- An address of the tables for the entries of any address. -/
theorem exists_lt (hpaged : Paged s R) (hs : s ≤ 7) {w : Word} (hw : R w) :
    ∃ w', w'.toNat < 2 ^ 41 ∧ R w' ∧ entryPtr w' s = entryPtr w s := by
  have hlt : w.toNat % 2 ^ 41 < 2 ^ 41 := Nat.mod_lt _ (by decide)
  have htoNat : (BitVec.ofNat 64 (w.toNat % 2 ^ 41)).toNat = w.toNat % 2 ^ 41 := by
    rw [BitVec.toNat_ofNat, Nat.mod_eq_of_lt (Nat.lt_trans hlt (by decide))]
  have hpage : SamePage s w (BitVec.ofNat 64 (w.toNat % 2 ^ 41)) := by
    rw [SamePage, htoNat, Nat.mod_mod]
  exact ⟨_, by rwa [htoNat], hpaged hw hpage, entryPtr_congr hpage le_rfl hs⟩

/-- The pages of the flexpage have been flushed. -/
theorem Flushed.flexpage (h12 : 12 ≤ fpage.getSizeLog2)
    (ha : fpage.Includes a) (ha' : a.toNat < 2 ^ 40)
    (hR : ∀ {v}, v.toNat < 2 ^ 41 → (R v ↔ fpage.Includes v ∧ v.toNat < 2 ^ 40))
    (hpaged : Paged (walkPgsize fpage) R) (hw : pt.Walks a (walkPgsize fpage))
    (h : Flushed u fpage.lowBits (walkPgsize fpage) R pt pt' calls) :
    FlushedFpage u fpage pt pt' calls := by
  have hs : walkPgsize fpage ≤ 7 := walkPgsize_le
  have hlt : ∀ {v : Word}, v.toNat < 2 ^ 40 → v.toNat < 2 ^ 41 := fun h => Nat.lt_trans h (by decide)
  have hwalks : ∀ {v}, v.toNat < 2 ^ 40 → fpage.Includes v → pt.Walks v (walkPgsize fpage) := by
    intro v hv hin r hr hr7
    have hpage := samePage_of_includes h12 (Nat.lt_of_lt_of_le hr hr7) ha hin (hlt ha') (hlt hv)
    rw [entryPtr_congr hpage hr hr7]
    exact hw r hr hr7
  refine ⟨fun {v p r} huser hin hlook => ?_, fun {k} => ?_, h.nodup, fun {v} hv hin hlost => ?_⟩
  · have hv := Space.isUserArea_iff.mp huser
    have hwv := hwalks hv hin
    have habove : pt'.Walks v (walkPgsize fpage + 1) := by
      intro r hr hr7
      obtain hsplit | ⟨-, rfl, -⟩ := h.split (Nat.lt_of_succ_lt hr) hr7 (hwv r (by omega) hr7)
      · exact hsplit
      · exact absurd hr (Nat.lt_irrefl _)
    have hwalks' : pt'.Walks v (walkPgsize fpage) := by
      intro r hr hr7
      obtain hsplit | ⟨hinv, rfl, -⟩ := h.split hr hr7 (hwv r hr hr7)
      · exact hsplit
      · rw [lookupMapping_eq habove hr7, lookupFrom_of_not_valid hinv] at hlook
        cases hlook
    rw [lookupMapping_eq hwalks' hs] at hlook
    rw [lookupMapping_eq hwv hs]
    exact h.gone (hlt hv) ((hR (hlt hv)).mpr ⟨hin, hv⟩) hlook
  · rw [h.mem]
    constructor
    · rintro ⟨v, p, r, hv, hRv, hlook, hrest⟩
      obtain ⟨hin, hv'⟩ := (hR hv).mp hRv
      rw [← lookupMapping_eq (hwalks hv' hin) hs] at hlook
      exact ⟨v, p, r, Space.isUserArea_iff.mpr hv', hin, hlook, hrest⟩
    · rintro ⟨v, p, r, huser, hin, hlook, hrest⟩
      have hv := Space.isUserArea_iff.mp huser
      rw [lookupMapping_eq (hwalks hv hin) hs] at hlook
      exact ⟨v, p, r, hlt hv, (hR (hlt hv)).mpr ⟨hin, hv⟩, hlook, hrest⟩
  · have hRv : ¬R v := fun hRv => hin ((hR hv).mp hRv).1
    refine view_congr fun r hr => ?_
    rcases Nat.lt_or_ge (walkPgsize fpage) r with hsr | hrs
    · by_cases hshared : ∃ w, R w ∧ entryPtr v r = entryPtr w (walkPgsize fpage)
      · -- the entry is one of the flexpage, read at a larger size
        obtain ⟨w, hRw, heq⟩ := hshared
        obtain ⟨w', hw', hRw', heq'⟩ := exists_lt hpaged hs hRw
        obtain ⟨hin', hlt'⟩ := (hR hw').mp hRw'
        rw [← heq'] at heq
        have hsplit : (pt.get (entryPtr v r)).Split r := by
          rw [heq, ← PgOp.entryPtr_eq_of_lt heq hsr hr]
          exact hwalks hlt' hin' r hsr hr
        obtain hsplit' | ⟨-, rfl, w, hRw, heq, htakes⟩ := h.split hsr hr hsplit
        · exact .inr ⟨hsplit', hsplit⟩
        · obtain ⟨w', hw', hRw', heq'⟩ := exists_lt hpaged hs hRw
          obtain ⟨hin', hlt'⟩ := (hR hw').mp hRw'
          rw [← heq'] at heq htakes
          exact absurd ⟨w', Space.isUserArea_iff.mpr hlt', hin', heq, htakes⟩ hlost
      · exact .inl (h.frame hr hRv fun w hw heq => hshared ⟨w, hw, heq⟩)
    · exact .inl (h.get_eq hpaged hs hrs hRv)

section Start

variable {flush unmapAll : Bool} {st : PageTable × μ} {t : Nat}

/-- The entries for the first address are followed down to a size. -/
theorem reaches_walks (num : Nat) (hp : pgsize ≤ t) (h7 : t ≤ 7)
    (huser : Space.isUserArea (fpage.addressWrapped fpage.getSizeLog2) = true)
    (hw : st.1.Walks (fpage.addressWrapped fpage.getSizeLog2) t) :
    Reaches u fpage flush unmapAll pgsize (startWalk fpage num pgsize, st)
      ({ startWalk fpage num pgsize with
        size := t, pg := entryPtr (fpage.addressWrapped fpage.getSizeLog2) t }, st) := by
  obtain ⟨k, hk⟩ := Nat.exists_eq_add_of_le h7
  have hnum : (startWalk fpage num pgsize).num ≠ 0 := (Nat.two_pow_pos _).ne'
  have hpg : (startWalk fpage num pgsize).pg =
      entryPtr (fpage.addressWrapped fpage.getSizeLog2) (t + k) := by
    rw [← hk, ← rootPtr_eq]
    rfl
  exact reaches_down hp huser hnum (Nat.le_of_eq hk.symm) hk hpg rfl fun r hr hle =>
    hw r hr (by omega)

/-- At an entry that is too large and is not split the walk stops. -/
theorem unmapStep_of_large {w : UnmapWalk} (hrwx : fpage.isRwx = true) (hlt : pgsize < w.size)
    (hsplit : ¬(st.1.get w.pg).Split w.size) :
    u.unmapStep fpage true unmapAll pgsize w st = none := by
  rw [unmapStep]
  split
  · rfl
  · split
    · rfl
    · rename_i hval
      have hval : (st.1.get w.pg).valid w.size = true := by
        simpa [hlt] using hval
      rw [if_neg fun h => hsplit ⟨hval, h.2⟩, if_pos ⟨hlt, hrwx, rfl⟩]

end Start

/-- A large page that has the first address of the flexpage has the whole flexpage, and nothing of
it is mapped where there is none. -/
theorem lookupMapping_eq_none {t : Nat} (h12 : 12 ≤ fpage.getSizeLog2)
    (hlarge : ∀ v p r, fpage.Includes v → pt.lookupMapping v = some (p, r) →
      pageShift r ≤ fpage.getSizeLog2)
    (ha : fpage.Includes a) (ha' : a.toNat < 2 ^ 41) (hlt : walkPgsize fpage < t) (h7 : t ≤ 7)
    (hw : pt.Walks a t) (hsplit : ¬(pt.get (entryPtr a t)).Split t)
    (hv : fpage.Includes v) (hv' : v.toNat < 2 ^ 41) : pt.lookupMapping v = none := by
  have hshare : ∀ r, t ≤ r → r ≤ 7 → entryPtr v r = entryPtr a r := by
    intro r htr hr
    have hpage := samePage_of_includes h12 (Nat.lt_of_lt_of_le hlt h7) ha hv ha' hv'
    exact entryPtr_congr hpage (Nat.lt_of_lt_of_le hlt htr) hr
  have hwv : pt.Walks v t := by
    intro r hr hr7
    rw [hshare r (Nat.le_of_lt hr) hr7]
    exact hw r hr hr7
  have hself := hshare t le_rfl h7
  rw [lookupMapping_eq hwv h7]
  cases hval : (pt.get (entryPtr v t)).valid t with
  | false => exact lookupFrom_of_not_valid hval
  | true =>
    -- it would be a page larger than the flexpage
    have hsub : (pt.get (entryPtr v t)).subtree t = false := by
      rw [hself] at hval ⊢
      exact Bool.eq_false_iff.mpr fun hsub => hsplit ⟨hval, hsub⟩
    have hle := hlarge v _ t hv ((lookupMapping_eq hwv h7).trans (lookupFrom_of_leaf hval hsub))
    have hlt' := lt_walkPgsize (Nat.lt_of_lt_of_le hlt h7)
    have hmono : pageShift (walkPgsize fpage + 1) ≤ pageShift t := pageShift_mono t h7 _ hlt
    have h32 : pageShift t ≤ 32 := pageShift_mono 7 le_rfl t h7
    omega

/-- The first address of the walk. -/
theorem includes_first (h12 : 12 ≤ fpage.getSizeLog2) :
    fpage.Includes (fpage.addressWrapped fpage.getSizeLog2) := by
  have hlo := fpage.lowBits_lt
  have hpow : 2 ^ 12 ≤ 2 ^ fpage.getSizeLog2 := Nat.pow_le_pow_right (by decide) h12
  rw [Fpage.Includes, Fpage.toNat_addressWrapped h12]
  omega

/-- A flush of all rights ends, and flushes the flexpage completely and nothing else. -/
theorem unmapFpage_exact {m : μ} (hflush : u.ClearsEntry) (hrwx : fpage.isRwx = true)
    (h12 : 12 ≤ fpage.getSizeLog2)
    (hlarge : ∀ v p r, fpage.Includes v → pt.lookupMapping v = some (p, r) →
      pageShift r ≤ fpage.getSizeLog2) :
    ∃ fuel f pt' m' log,
      (∀ n, u.recording.unmapFpage fpage true false (fuel + n) (pt, (m, [])) =
        some (f, (pt', (m', log)))) ∧
      (∀ n, u.unmapFpage fpage true false (fuel + n) (pt, m) = some (f, (pt', m'))) ∧
      FlushedFpage u fpage pt pt' (log.map Prod.fst) := by
  suffices h : ∃ x, Ends u.recording fpage true false (walkPgsize fpage)
      (startWalk fpage (min fpage.getSizeLog2 (pageShift (PgSize.sizeMax + 1)))
        (walkPgsize fpage)) (pt, (m, [])) x ∧
      FlushedFpage u fpage pt x.2.1 (x.2.2.2.map Prod.fst) by
    obtain ⟨⟨rwx, pt', m', log⟩, hends, hdone⟩ := h
    obtain ⟨fuel, hfuel⟩ := unmapFpage_of_ends h12 hends
    exact ⟨fuel, _, pt', m', log, hfuel, fun n => (unmapFpage_follows (hfuel n)).1, hdone⟩
  have hs : walkPgsize fpage ≤ 7 := walkPgsize_le
  have hlo := fpage.lowBits_lt
  have hincl := includes_first h12
  have htoNat := Fpage.toNat_addressWrapped h12
  rcases Nat.lt_or_ge fpage.first (2 ^ 40) with hfirst | hfirst
  · have hlt : (fpage.addressWrapped fpage.getSizeLog2).toNat < 2 ^ 40 := by
      obtain ⟨c, hc⟩ : 2 ^ 12 ∣ fpage.first :=
        (Nat.pow_dvd_pow 2 h12).trans (Fpage.first_aligned h12)
      omega
    have huser := Space.isUserArea_iff.mpr hlt
    have hlt41 := Nat.lt_trans hlt (show 2 ^ 40 < 2 ^ 41 by decide)
    rcases exists_walks pt (fpage.addressWrapped fpage.getSizeLog2)
      (Nat.add_sub_cancel' hs) with hw | ⟨t, ht, ht7, hw, hsplit⟩
    · -- the pages of the flexpage are visited
      obtain ⟨n, hn, hrow, hend, hmem⟩ := exists_row h12 hfirst
      obtain ⟨calls, hdone, hlog⟩ := does_range (u := u) (x := (0, (pt, (m, []))))
        hlo hs (fun ha => does_visit hrwx hflush hlo hs ha) hrow
      refine ⟨_, Ends.of_reaches (ends_range hs rfl hn (fun k hk => ?_) hend)
        (reaches_walks _ le_rfl hs huser hw), ?_⟩
      · exact (hrow.page hk).inUserArea hlo hs
      · have hcalls : calls = _ := (List.nil_append calls).symm.trans hlog.symm
        rw [hcalls] at hdone
        exact hdone.flexpage h12 hincl hlt hmem paged_inRow hw
    · -- nothing is mapped there
      refine ⟨_, Ends.of_reaches (ends_of_stop (.inr (unmapStep_of_large hrwx ht hsplit)))
        (reaches_walks _ (Nat.le_of_lt ht) ht7 huser hw), ?_⟩
      refine flushedFpage_of_none fun v hv hin => ?_
      exact lookupMapping_eq_none h12 hlarge hincl hlt41 ht ht7 hw hsplit hin
        (Nat.lt_trans (Space.isUserArea_iff.mp hv) (by decide))
  · -- the flexpage is not in the user area
    have hout : Space.isUserArea (fpage.addressWrapped fpage.getSizeLog2) = false := by
      refine Bool.eq_false_iff.mpr fun huser => ?_
      have hlt := Space.isUserArea_iff.mp huser
      omega
    have hstop : u.recording.unmapStep fpage true false (walkPgsize fpage)
        (startWalk fpage (min fpage.getSizeLog2 (pageShift (PgSize.sizeMax + 1)))
          (walkPgsize fpage)) (pt, (m, [])) = none := by
      simp only [unmapStep, startWalk, hout, Bool.not_false, if_true]
    refine ⟨_, ends_of_stop (.inr hstop), flushedFpage_of_none fun v hv hin => ?_⟩
    have hlt := Space.isUserArea_iff.mp hv
    exact absurd hin.1 (by omega)

theorem clearsEntry_alone : alone.ClearsEntry := by
  intro c st hrwx hself
  simp only [alone, flushAlone, hrwx, hself, Bool.not_true, Bool.false_eq_true, if_false, if_true]

/-- The page of 16 KB that is mapped in the sample is flushed. -/
theorem exists_flushedFpage : ∃ f pt' log,
    (∃ fuel, alone.unmapFpage ⟨0x40e7⟩ true false fuel (PgOp.sampleTable, ()) =
      some (f, (pt', ()))) ∧ FlushedFpage alone ⟨0x40e7⟩ PgOp.sampleTable pt' log := by
  have hlarge : ∀ v p r, (⟨0x40e7⟩ : Fpage).Includes v →
      PgOp.sampleTable.lookupMapping v = some (p, r) →
        pageShift r ≤ (⟨0x40e7⟩ : Fpage).getSizeLog2 := by
    intro v p r hv hlook
    obtain ⟨h1, h2⟩ := hv
    change 0x4000 ≤ v.toNat at h1
    change v.toNat < 0x8000 at h2
    have hpage : SamePage 2 0 v := by
      change v.toNat % 2 ^ 41 / 2 ^ 16 = 0
      omega
    have hw : PgOp.sampleTable.Walks v 1 := by
      intro r hr hr7
      rw [entryPtr_congr hpage hr hr7]
      exact PgOp.walks_sampleTable le_rfl r hr hr7
    rw [lookupMapping_eq hw (by decide)] at hlook
    exact (pageShift_mono 1 (by decide) r (lookupFrom_some (by decide) hlook).2).trans (by decide)
  obtain ⟨fuel, f, pt', m', log, -, hrun, hdone⟩ := unmapFpage_exact (m := ()) clearsEntry_alone
    (show (⟨0x40e7⟩ : Fpage).isRwx = true by decide) (by decide) hlarge
  exact ⟨f, pt', _, ⟨fuel, hrun 0⟩, hdone⟩

/-- A space with its kernel interface page at `0x1000`. -/
def withKip : Unmapper Unit := { alone with space := { Space.zero with kipArea := ⟨0x10c0⟩ } }

/-- A space that has mapped the page at `0x4000` to itself, at `0x1000`. -/
def withDerived : Unmapper Unit where
  space := .zero
  mdbFlush c st :=
    let r := flushAlone c st
    if c.fPg = entryPtr 0x4000 1 then (r.1, (r.2.1.clear (entryPtr 0x1000 0) 0 false, ())) else r
  releaseKernelMapping _ _ _ m := m

/-- The sample with a page of 4 KB. -/
def sampleTable4k : PageTable :=
  (PgOp.setEntry 0x1000 true false true 3).apply PgOp.sampleTable (entryPtr 0x1000 0) 0

/-- A kernel interface page is a leaf that is not passed to `mdb_flush`, and a page that was mapped
from the flexpage within the space is lost. -/
theorem exists_not_exact :
    (∃ f pt' log, withKip.recording.unmapFpage ⟨0x10c7⟩ true false 20 (sampleTable4k, ((), [])) =
        some (f, (pt', ((), log))) ∧ (⟨0x10c7⟩ : Fpage).Includes 0x1000 ∧
      sampleTable4k.lookupMapping 0x1000 = some (entryPtr 0x1000 0, 0) ∧ log = []) ∧
    ∃ f pt' log, withDerived.recording.unmapFpage ⟨0x40e7⟩ true false 20 (sampleTable4k, ((), [])) =
        some (f, (pt', ((), log))) ∧ ¬(⟨0x40e7⟩ : Fpage).Includes 0x1000 ∧
      sampleTable4k.lookupMapping 0x1000 = some (entryPtr 0x1000 0, 0) ∧
      pt'.lookupMapping 0x1000 = none := by
  have hlook : sampleTable4k.lookupMapping 0x1000 = some (entryPtr 0x1000 0, 0) := by
    decide +kernel
  constructor
  · have hrun : (withKip.recording.unmapFpage ⟨0x10c7⟩ true false 20 (sampleTable4k, ((), []))).map
        (fun x => x.2.2.2) = some [] := by decide +kernel
    obtain ⟨⟨f, pt', m', log⟩, hx, rfl⟩ := Option.map_eq_some_iff.mp hrun
    exact ⟨f, pt', [], hx, ⟨by decide, by decide⟩, hlook, rfl⟩
  · have hrun : (withDerived.recording.unmapFpage ⟨0x40e7⟩ true false 20
        (sampleTable4k, ((), []))).map (fun x => x.2.1.lookupMapping 0x1000) = some none := by
      decide +kernel
    obtain ⟨⟨f, pt', m', log⟩, hx, hnone⟩ := Option.map_eq_some_iff.mp hrun
    exact ⟨f, pt', log, hx, fun h => absurd h.1 (by decide), hlook, hnone⟩

end Unmapper

end L4Thread
