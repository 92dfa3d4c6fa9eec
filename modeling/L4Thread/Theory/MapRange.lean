import L4Thread.Kernel.MapRange
import L4Thread.Lib.Mask
import L4Thread.Theory.UtcbCheck

/-!
# The range of a map operation

The addresses that `map_fpage` starts from are those that the send base selects, unless both
flexpages are complete.
-/

namespace L4Thread

open Mask

variable {f sndFp rcvFp : Fpage} {base : Word} {m n : Nat}

/-- The first address of a flexpage. -/
def Fpage.first (f : Fpage) : Nat := if f.isCompleteFpage then 0 else f.getAddress.toNat

theorem Fpage.getSizeLog2_le (f : Fpage) : f.getSizeLog2 ≤ 64 := by
  have := f.sizeField_lt
  rw [getSizeLog2]
  split <;> omega

/-- The size and the rights of a flexpage are below its first address. -/
theorem Fpage.first_eq (h : 10 ≤ f.getSizeLog2) :
    f.first = f.raw.toNat / 2 ^ f.getSizeLog2 * 2 ^ f.getSizeLog2 := by
  by_cases hc : f.isCompleteFpage = true
  · have hsize : f.getSizeLog2 = 64 := if_pos hc
    rw [first, if_pos hc, hsize, Nat.div_eq_of_lt f.raw.isLt, Nat.zero_mul]
  · have hsize : f.getSizeLog2 = f.sizeField := if_neg hc
    rw [hsize] at h ⊢
    rw [first, if_neg hc, toNat_getAddress (by omega), alignedBase, base]
    congr 1
    obtain ⟨k, hk⟩ := Nat.exists_eq_add_of_le h
    rw [hk, Nat.pow_add, ← Nat.div_div_eq_div_mul, ← Nat.div_div_eq_div_mul]
    congr 1
    exact Nat.mul_div_cancel _ (by decide)

theorem baseMask_eq (hf : 1 ≤ f.getSizeLog2) (hm : 1 ≤ m) (hm' : m ≤ 64) :
    baseMask f m = .ok (low 64 f.getSizeLog2 &&& ~~~low 64 m) := by
  have hle := f.getSizeLog2_le
  rw [baseMask, shr, shr, if_pos (by omega), if_pos (by omega), allOnes_ushiftRight hle,
    allOnes_ushiftRight hm']
  rfl

theorem Fpage.address_eq (hm : m < 64) : f.address m = .ok (f.raw &&& ~~~low 64 m) := by
  rw [address, shl, if_pos hm, ← one_shiftLeft_sub_one hm]
  rfl

theorem Fpage.address_shift : f.address 64 = .error .shift := rfl

/-- The position that an offset selects in a flexpage. -/
def Fpage.position (f : Fpage) (base : Word) (m : Nat) : Nat :=
  f.first + base.toNat % 2 ^ f.getSizeLog2 / 2 ^ m * 2 ^ m

theorem Fpage.position_inside (base : Word) (hm : m ≤ f.getSizeLog2) (hf : 10 ≤ f.getSizeLog2) :
    2 ^ m ∣ f.position base m ∧
      f.position base m + 2 ^ m ≤ f.first + 2 ^ f.getSizeLog2 := by
  obtain ⟨k, hk⟩ := Nat.exists_eq_add_of_le hm
  have hpow : 2 ^ f.getSizeLog2 = 2 ^ m * 2 ^ k := by rw [hk, Nat.pow_add]
  constructor
  · refine Nat.dvd_add ?_ (Nat.dvd_mul_left _ _)
    rw [first_eq hf, hpow]
    exact Nat.dvd_mul_left_of_dvd (Nat.dvd_mul_right _ _) _
  · have hlt : base.toNat % 2 ^ f.getSizeLog2 / 2 ^ m < 2 ^ k := by
      rw [hpow, Nat.div_lt_iff_lt_mul (Nat.two_pow_pos m), Nat.mul_comm (2 ^ k)]
      exact Nat.mod_lt _ (Nat.mul_pos (Nat.two_pow_pos m) (Nat.two_pow_pos k))
    have hle := Nat.mul_le_mul_right (2 ^ m) hlt
    rw [Nat.succ_mul, Nat.mul_comm (2 ^ k)] at hle
    rw [position]
    omega

theorem Fpage.first_add_le (hf : 10 ≤ f.getSizeLog2) : f.first + 2 ^ f.getSizeLog2 ≤ 2 ^ 64 := by
  obtain ⟨k, hk⟩ := Nat.exists_eq_add_of_le f.getSizeLog2_le
  have hlt : f.raw.toNat / 2 ^ f.getSizeLog2 < 2 ^ k := by
    rw [Nat.div_lt_iff_lt_mul (Nat.two_pow_pos _), ← Nat.pow_add, Nat.add_comm, ← hk]
    exact f.raw.isLt
  have hle := Nat.mul_le_mul_right (2 ^ f.getSizeLog2) hlt
  rw [Nat.succ_mul, ← Nat.pow_add, Nat.add_comm k, ← hk] at hle
  rwa [first_eq hf]

/-- The address on the larger side. -/
theorem Fpage.toNat_located (base : Word) (hm : m ≤ f.getSizeLog2) (hm' : m < 64) (hf : 10 ≤ f.getSizeLog2) :
    (((f.raw &&& ~~~low 64 m) &&& ~~~(low 64 f.getSizeLog2 &&& ~~~low 64 m)) +
      (base &&& (low 64 f.getSizeLog2 &&& ~~~low 64 m))).toNat = f.position base m := by
  obtain ⟨k, hk⟩ := Nat.exists_eq_add_of_le hm
  have hle := f.getSizeLog2_le
  have hraw : (f.raw &&& ~~~low 64 m).toNat = f.raw.toNat / 2 ^ m * 2 ^ m :=
    toNat_and_not_low hm'.le
  have hfirst : ((f.raw &&& ~~~low 64 m) &&& ~~~(low 64 f.getSizeLog2 &&& ~~~low 64 m)).toNat =
      f.first := by
    rw [and_not_between hm'.le (hraw ▸ Nat.dvd_mul_left _ _), toNat_and_not_low hle, hraw,
      first_eq hf, hk, Nat.pow_add, ← Nat.div_div_eq_div_mul, ← Nat.div_div_eq_div_mul,
      Nat.mul_div_cancel _ (Nat.two_pow_pos m)]
  have hoff : (base &&& (low 64 f.getSizeLog2 &&& ~~~low 64 m)).toNat =
      base.toNat % 2 ^ f.getSizeLog2 / 2 ^ m * 2 ^ m := toNat_and_between hm'.le hle
  have hin := (position_inside base hm hf).2
  have hend := first_add_le hf
  have hpos := Nat.two_pow_pos m
  rw [BitVec.toNat_add, hfirst, hoff]
  rw [position] at hin ⊢
  exact Nat.mod_eq_of_lt (by omega)

/-- The address on the smaller side. -/
theorem Fpage.toNat_address (hf : 10 ≤ f.getSizeLog2) :
    (f.raw &&& ~~~low 64 f.getSizeLog2).toNat = f.first := by
  rw [toNat_and_not_low f.getSizeLog2_le, first_eq hf]

theorem findPgsize_le (hn : pageShift 0 ≤ n) (size : Nat) : pageShift (findPgsize n size) ≤ n := by
  induction size with
  | zero => exact hn
  | succ size ih =>
    rw [findPgsize]
    split
    · exact ih
    · omega

theorem findPgsize_le_size (size : Nat) : findPgsize n size ≤ size := by
  induction size with
  | zero => exact Nat.le_refl 0
  | succ size ih =>
    rw [findPgsize]
    split
    · exact ih.trans (Nat.le_succ size)
    · exact Nat.le_refl _

theorem le_pageShift : ∀ size ≤ PgSize.sizeMax, 12 ≤ pageShift size := by decide

theorem pagesOf_eq {fAddr tAddr : Word} (hn : 12 ≤ n) (hn' : n ≤ 64) :
    ∃ num pgsize, pagesOf fAddr tAddr n = .ok { fAddr, tAddr, num, pgsize } ∧
      num.toNat * 2 ^ pageShift pgsize = 2 ^ n := by
  have hle := findPgsize_le (show pageShift 0 ≤ n from hn) PgSize.sizeMax
  have hmin := le_pageShift _ (findPgsize_le_size (n := n) PgSize.sizeMax)
  have hlt : n - pageShift (findPgsize n PgSize.sizeMax) < 64 := by omega
  refine ⟨(1 : Word) <<< (n - pageShift (findPgsize n PgSize.sizeMax)),
    findPgsize n PgSize.sizeMax, ?_, ?_⟩
  · have hmin : ¬n < pageShift 0 := not_lt.mpr hn
    rw [pagesOf, if_neg hmin]
    dsimp only
    rw [shl, if_pos hlt]
    rfl
  · have hpow : 2 ^ (n - pageShift (findPgsize n PgSize.sizeMax)) < 2 ^ 64 :=
      Nat.pow_lt_pow_right (by decide) hlt
    have hone : (1 : Word).toNat = 1 := rfl
    rw [BitVec.toNat_shiftLeft, Nat.shiftLeft_eq, hone, Nat.one_mul, Nat.mod_eq_of_lt hpow,
      ← Nat.pow_add, Nat.sub_add_cancel hle]

/-! ## The computation -/

/-- What a range has to be: two aligned blocks of the smaller of the two sizes, one in each of the
flexpages, where the send base selects the block in the larger one. -/
structure MapRange.Exact (sndFp rcvFp : Fpage) (base : Word) (r : MapRange) : Prop where
  fAligned : 2 ^ min sndFp.getSizeLog2 rcvFp.getSizeLog2 ∣ r.fAddr.toNat
  tAligned : 2 ^ min sndFp.getSizeLog2 rcvFp.getSizeLog2 ∣ r.tAddr.toNat
  fInside : sndFp.first ≤ r.fAddr.toNat ∧
    r.fAddr.toNat + 2 ^ min sndFp.getSizeLog2 rcvFp.getSizeLog2 ≤
      sndFp.first + 2 ^ sndFp.getSizeLog2
  tInside : rcvFp.first ≤ r.tAddr.toNat ∧
    r.tAddr.toNat + 2 ^ min sndFp.getSizeLog2 rcvFp.getSizeLog2 ≤
      rcvFp.first + 2 ^ rcvFp.getSizeLog2
  selected :
    if sndFp.getSizeLog2 ≤ rcvFp.getSizeLog2 then
      r.tAddr.toNat = rcvFp.position base sndFp.getSizeLog2
    else r.fAddr.toNat = sndFp.position base rcvFp.getSizeLog2
  pages : r.num.toNat * 2 ^ pageShift r.pgsize = 2 ^ min sndFp.getSizeLog2 rcvFp.getSizeLog2

theorem getSizeLog2_lt (h : f.isCompleteFpage = false) : f.getSizeLog2 < 64 := by
  rw [Fpage.getSizeLog2, if_neg (by simp [h])]
  exact f.sizeField_lt

/-- The larger side is in the receive flexpage. -/
theorem mapRange_of_le (base : Word) (hle : sndFp.getSizeLog2 ≤ rcvFp.getSizeLog2)
    (hlt : sndFp.getSizeLog2 < 64) (hs : 1 ≤ sndFp.getSizeLog2) :
    mapRange sndFp rcvFp base =
      pagesOf (sndFp.raw &&& ~~~low 64 sndFp.getSizeLog2)
        (((rcvFp.raw &&& ~~~low 64 sndFp.getSizeLog2) &&&
            ~~~(low 64 rcvFp.getSizeLog2 &&& ~~~low 64 sndFp.getSizeLog2)) +
          (base &&& (low 64 rcvFp.getSizeLog2 &&& ~~~low 64 sndFp.getSizeLog2)))
        sndFp.getSizeLog2 := by
  rw [mapRange, if_pos hle]
  dsimp only
  rw [baseMask_eq (hs.trans hle) hs hlt.le, Fpage.address_eq hlt, Fpage.address_eq hlt]
  rfl

/-- The larger side is in the send flexpage. -/
theorem mapRange_of_lt (base : Word) (hgt : rcvFp.getSizeLog2 < sndFp.getSizeLog2) (hr : 1 ≤ rcvFp.getSizeLog2) :
    mapRange sndFp rcvFp base =
      pagesOf
        (((sndFp.raw &&& ~~~low 64 rcvFp.getSizeLog2) &&&
            ~~~(low 64 sndFp.getSizeLog2 &&& ~~~low 64 rcvFp.getSizeLog2)) +
          (base &&& (low 64 sndFp.getSizeLog2 &&& ~~~low 64 rcvFp.getSizeLog2)))
        (rcvFp.raw &&& ~~~low 64 rcvFp.getSizeLog2) rcvFp.getSizeLog2 := by
  have hlt : rcvFp.getSizeLog2 < 64 := hgt.trans_le sndFp.getSizeLog2_le
  rw [mapRange, if_neg (not_le.mpr hgt)]
  dsimp only
  rw [baseMask_eq (hr.trans hgt.le) hr hlt.le, Fpage.address_eq hlt, Fpage.address_eq hlt]
  rfl

/-- A flexpage is a block of its size. -/
theorem Fpage.first_dvd (hf : 10 ≤ f.getSizeLog2) : 2 ^ f.getSizeLog2 ∣ f.first := by
  rw [first_eq hf]
  exact Nat.dvd_mul_left _ _

/-- The range is exact, and no shift is by the width of a word, if and only if not both flexpages
are complete. -/
theorem mapRange_exact_iff (hs : 12 ≤ sndFp.getSizeLog2) (hr : 12 ≤ rcvFp.getSizeLog2) :
    (∃ r, mapRange sndFp rcvFp base = .ok r ∧ r.Exact sndFp rcvFp base) ↔
      ¬(sndFp.isCompleteFpage = true ∧ rcvFp.isCompleteFpage = true) := by
  have hs10 : 10 ≤ sndFp.getSizeLog2 := (by decide : 10 ≤ 12).trans hs
  have hr10 : 10 ≤ rcvFp.getSizeLog2 := (by decide : 10 ≤ 12).trans hr
  constructor
  · rintro ⟨r, hok, -⟩ ⟨hsc, hrc⟩
    have hs64 : sndFp.getSizeLog2 = 64 := if_pos hsc
    have hr64 : rcvFp.getSizeLog2 = 64 := if_pos hrc
    rw [mapRange, hs64, hr64, if_pos le_rfl] at hok
    dsimp only at hok
    rw [baseMask_eq (by omega) (by decide) le_rfl, Fpage.address_shift] at hok
    cases hok
  · intro h
    have hlt : min sndFp.getSizeLog2 rcvFp.getSizeLog2 < 64 := by
      by_cases hc : sndFp.isCompleteFpage = true
      · exact (min_le_right _ _).trans_lt
          (getSizeLog2_lt (eq_false_of_ne_true fun hrc => h ⟨hc, hrc⟩))
      · exact (min_le_left _ _).trans_lt (getSizeLog2_lt (eq_false_of_ne_true hc))
    by_cases hle : sndFp.getSizeLog2 ≤ rcvFp.getSizeLog2
    · have hmin : min sndFp.getSizeLog2 rcvFp.getSizeLog2 = sndFp.getSizeLog2 := min_eq_left hle
      rw [hmin] at hlt
      obtain ⟨num, pgsize, hpages, hnum⟩ := pagesOf_eq hs hlt.le
      rw [← mapRange_of_le base hle hlt (by omega)] at hpages
      have hf := sndFp.toNat_address hs10
      have ht := Fpage.toNat_located base hle hlt hr10
      obtain ⟨hdvd, hend⟩ := Fpage.position_inside base hle hr10
      refine ⟨_, hpages, ?_, ?_, ?_, ?_, ?_, ?_⟩
      · rw [hmin, hf]
        exact Fpage.first_dvd hs10
      · rw [hmin, ht]
        exact hdvd
      · rw [hmin, hf]
        exact ⟨le_rfl, le_rfl⟩
      · rw [hmin, ht]
        exact ⟨Nat.le_add_right _ _, hend⟩
      · rw [if_pos hle, ht]
      · rw [hmin]
        exact hnum
    · have hgt := not_le.mp hle
      have hmin : min sndFp.getSizeLog2 rcvFp.getSizeLog2 = rcvFp.getSizeLog2 :=
        min_eq_right hgt.le
      rw [hmin] at hlt
      obtain ⟨num, pgsize, hpages, hnum⟩ := pagesOf_eq hr hlt.le
      rw [← mapRange_of_lt base hgt (by omega)] at hpages
      have ht := rcvFp.toNat_address hr10
      have hf := Fpage.toNat_located base hgt.le hlt hs10
      obtain ⟨hdvd, hend⟩ := Fpage.position_inside base hgt.le hs10
      refine ⟨_, hpages, ?_, ?_, ?_, ?_, ?_, ?_⟩
      · rw [hmin, hf]
        exact hdvd
      · rw [hmin, ht]
        exact Fpage.first_dvd hr10
      · rw [hmin, hf]
        exact ⟨Nat.le_add_right _ _, hend⟩
      · rw [hmin, ht]
        exact ⟨le_rfl, le_rfl⟩
      · rw [if_neg hle, hf]
      · rw [hmin]
        exact hnum

/-- A page that is sent to a complete receive window. -/
theorem exists_mapRange_exact :
    ∃ r, mapRange ⟨0xc0⟩ .complete 0x5123 = .ok r ∧ r.tAddr = 0x5000 ∧
      ∃ r', mapRange ⟨0xc0⟩ .complete 0x5123 = .ok r' ∧ r'.Exact ⟨0xc0⟩ .complete 0x5123 :=
  ⟨⟨0, 0x5000, 1, 0⟩, by decide, rfl,
    (mapRange_exact_iff (by decide) (by decide)).mpr (by decide)⟩

/-- With two complete flexpages, the word 1 is shifted by the width of a word. -/
theorem complete_mapRange_not_exact :
    ¬∃ r, mapRange .complete .complete 0 = .ok r ∧ r.Exact .complete .complete 0 := by
  rintro ⟨r, hok, -⟩
  have hshift : mapRange .complete .complete 0 = .error .shift := by decide
  cases hshift.symm.trans hok

end L4Thread
