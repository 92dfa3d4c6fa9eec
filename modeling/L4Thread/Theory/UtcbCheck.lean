import Mathlib.Data.BitVec
import L4Thread.Irpy.Stubs
import L4Thread.Theory.UtcbArea

/-!
# The two checks of a UTCB location

The harness's check of a location against the kernel's. Both compare with the area from its base to
its base plus its size, on wrapped addresses, but only the kernel aligns the base to the size first,
with a shift that does nothing for the size exponent 0.
-/

namespace L4Thread

open TrapM Kernel

variable {s : KState} {p : TcbPtr} {f : Fpage} {loc : Word}

namespace Fpage

/-! ## The fields of a flexpage -/

/-- The base of the flexpage as it is stored. -/
def base (f : Fpage) : Nat := f.raw.toNat / 1024 * 1024

/-- The base rounded down to the size. -/
def alignedBase (f : Fpage) : Nat := f.base / 2 ^ f.sizeField * 2 ^ f.sizeField

theorem toNat_getBase (f : Fpage) : f.getBase.toNat = f.base := by
  have hlt := f.raw.isLt
  rw [getBase, base, BitVec.toNat_shiftLeft, BitVec.toNat_ushiftRight, Nat.shiftRight_eq_div_pow,
    Nat.shiftLeft_eq]
  omega

theorem base_eq_mul (f : Fpage) : f.base = f.raw.toNat / 1024 * 1024 := rfl

/-- The shift of the kernel's `get_address` clears the bits below the size. -/
theorem toNat_getAddress (hsize : f.sizeField ≠ 0) : f.getAddress.toNat = f.alignedBase := by
  have hlt := f.sizeField_lt
  have hk : (64 - f.sizeField) % 64 = 64 - f.sizeField := by omega
  have hshift : f.getAddress = f.getBase >>> f.sizeField <<< f.sizeField := by
    ext i hi
    simp only [getAddress, hk, BitVec.getElem_and, BitVec.getElem_not, BitVec.getElem_ushiftRight,
      BitVec.getLsbD_allOnes, BitVec.getElem_shiftLeft]
    by_cases hlow : i < f.sizeField
    · have hones : 64 - f.sizeField + i < 64 := by omega
      simp [hlow, hones]
    · have hones : ¬64 - f.sizeField + i < 64 := by omega
      have hbit : f.sizeField + (i - f.sizeField) = i := by omega
      simp [hlow, hones, hbit, hi]
  have hbase : f.alignedBase < 2 ^ 64 :=
    (Nat.div_mul_le_self _ _).trans_lt (f.toNat_getBase ▸ f.getBase.isLt)
  rw [hshift, BitVec.toNat_shiftLeft, BitVec.toNat_ushiftRight, Nat.shiftRight_eq_div_pow,
    Nat.shiftLeft_eq, toNat_getBase]
  exact Nat.mod_eq_of_lt hbase

/-- For the size exponent 0 the shift count is the word size, and the mask is empty. -/
theorem toNat_getAddress_zero (hsize : f.sizeField = 0) : f.getAddress.toNat = 0 := by
  have hmask : ~~~(BitVec.allOnes 64 >>> ((64 - 0) % 64)) = 0#64 := by decide
  rw [getAddress, hsize, hmask, BitVec.and_zero]
  rfl

/-! ## The fields in the harness -/

/-- The signed shift loses no bit of the base. -/
theorem sshiftRight_shiftLeft (f : Fpage) : f.raw.sshiftRight 10 <<< 10 = f.getBase := by
  ext i hi
  simp only [getBase, BitVec.getElem_shiftLeft, BitVec.getElem_sshiftRight,
    BitVec.getElem_ushiftRight]
  by_cases hlow : i < 10
  · simp [hlow]
  · have hbit : 10 + (i - 10) = i := by omega
    simp [hlow, hbit, hi]

theorem toNat_stubSize (f : Fpage) : (f.raw.sshiftRight 4 &&& 63).toNat = f.sizeField := by
  have hmod : (f.raw.sshiftRight 4 &&& 63).toNat = (f.raw.sshiftRight 4).toNat % 64 :=
    Nat.and_two_pow_sub_one_eq_mod _ 6
  rw [hmod, sizeField, BitVec.sshiftRight, BitVec.toNat_ofInt, BitVec.toInt_eq_toNat_cond,
    Int.shiftRight_eq_div_pow]
  split <;> omega

/-! ## The ranges -/

/-- The wrapped comparison of both checks, for an area of the given base. -/
def Covers (f : Fpage) (start loc : Nat) : Prop :=
  start ≤ loc ∧ (loc + 1024) % 2 ^ 64 ≤ (start + 2 ^ f.sizeField) % 2 ^ 64

theorem stubComplete_iff : (f.raw.sshiftRight 4 &&& 63 = 1 ∧ f.raw.sshiftRight 10 = 0) ↔
    f.isCompleteFpage = true := by
  have hsize : f.raw.sshiftRight 4 &&& 63 = 1 ↔ f.sizeField = 1 := by
    rw [← f.toNat_stubSize, ← BitVec.toNat_inj]
    rfl
  have hbase : f.raw.sshiftRight 10 = 0 ↔ f.getBase = 0 := by
    constructor
    · intro hzero
      rw [← f.sshiftRight_shiftLeft, hzero]
      rfl
    · intro hzero
      have hlt : f.raw.toNat < 1024 := by
        have hnat : f.base = 0 := by
          rw [← f.toNat_getBase, hzero]
          rfl
        rw [base] at hnat
        omega
      have hmsb : f.raw.msb = false := by
        rw [BitVec.msb_eq_decide, decide_eq_false_iff_not]
        omega
      rw [BitVec.sshiftRight_eq_of_msb_false hmsb, ← BitVec.toNat_inj, BitVec.toNat_ushiftRight,
        Nat.shiftRight_eq_div_pow, Nat.div_eq_of_lt hlt]
      rfl
  rw [isCompleteFpage, Bool.and_eq_true, beq_iff_eq, beq_iff_eq, hsize, hbase]

theorem toNat_add_1024 (loc : Word) : (loc + 1024).toNat = (loc.toNat + 1024) % 2 ^ 64 :=
  BitVec.toNat_add loc 1024

theorem stubCheck_iff : stubCheckUtcbLocation f.raw loc = true ↔
    f.isCompleteFpage = true ∨ f.Covers f.base loc.toNat := by
  have hpow : 2 ^ f.sizeField < 2 ^ 64 := Nat.pow_lt_pow_right (by decide) f.sizeField_lt
  have hone : ((1 : Word) <<< (f.raw.sshiftRight 4 &&& 63)).toNat = 2 ^ f.sizeField := by
    rw [BitVec.shiftLeft_eq', f.toNat_stubSize, BitVec.toNat_shiftLeft, Nat.shiftLeft_eq]
    exact (congrArg (· % 2 ^ 64) (Nat.one_mul _)).trans (Nat.mod_eq_of_lt hpow)
  simp only [stubCheckUtcbLocation, Bool.or_eq_true, Bool.and_eq_true, beq_iff_eq,
    decide_eq_true_eq]
  rw [stubComplete_iff, sshiftRight_shiftLeft, BitVec.le_def, BitVec.le_def, toNat_add_1024,
    BitVec.toNat_add, hone, toNat_getBase, Covers]

theorem isRangeInFpage_iff : f.isRangeInFpage loc (loc + BitVec.ofNat 64 sizeofUtcb) = true ↔
    f.isCompleteFpage = true ∨
      f.Covers (if f.sizeField = 0 then 0 else f.alignedBase) loc.toNat := by
  have haddr : f.getAddress.toNat = if f.sizeField = 0 then 0 else f.alignedBase := by
    split
    · exact toNat_getAddress_zero ‹_›
    · exact toNat_getAddress ‹_›
  rw [isRangeInFpage, Bool.or_eq_true, Bool.and_eq_true, decide_eq_true_eq, decide_eq_true_eq,
    BitVec.le_def, BitVec.le_def, BitVec.toNat_add, BitVec.toNat_add, toNat_getSize, haddr, Covers]
  rfl

/-! ## Agreement -/

/-- The locations that are checked alike: all if the base is aligned to the size, else those
outside both ranges or inside both. -/
def ChecksAlike (f : Fpage) (loc : Nat) : Prop :=
  if f.sizeField = 0 then f.base = 0 ∨ loc < 2 ^ 64 - 1022
  else if 2 ^ f.sizeField ∣ f.base then True
  else if f.alignedBase + 2 ^ f.sizeField = 2 ^ 64 then loc ≤ 2 ^ 64 - 1024
  else loc < f.alignedBase ∨
    f.base ≤ loc ∧ loc + 1024 ≤ f.alignedBase + 2 ^ f.sizeField ∨
    f.base + 2 ^ f.sizeField < loc + 1024

instance {n : Nat} : Decidable (f.ChecksAlike n) := by
  unfold ChecksAlike
  infer_instance

theorem base_lt (f : Fpage) : f.base < 2 ^ 64 := f.toNat_getBase ▸ f.getBase.isLt

theorem alignedBase_of_dvd (h : 2 ^ f.sizeField ∣ f.base) : f.alignedBase = f.base :=
  Nat.div_mul_cancel h

theorem not_complete_of_not_dvd (h : ¬2 ^ f.sizeField ∣ f.base) : f.isCompleteFpage = false := by
  by_contra hc
  have hbase : f.getBase = 0 := by
    rw [Bool.not_eq_false, isCompleteFpage, Bool.and_eq_true, beq_iff_eq, beq_iff_eq] at hc
    exact hc.2
  have hzero : f.base = 0 := by
    rw [← f.toNat_getBase, hbase]
    rfl
  exact h (hzero ▸ Nat.dvd_zero _)

/-- The wrapped comparisons with an area of size `size` from `b` and from the aligned `a` below it;
only an area that ends with the address space wraps. -/
theorem comparisons_iff {a b size n : Nat} (ha : a % 1024 = 0) (hb : b % 1024 = 0)
    (hsize : size % 1024 = 0) (hab : a < b) (hba : b < a + size)
    (hend : a + size = 2 ^ 64 ∨ a + 2 * size ≤ 2 ^ 64) (hn : n < 2 ^ 64) :
    ((b ≤ n ∧ (n + 1024) % 2 ^ 64 ≤ (b + size) % 2 ^ 64) ↔
      (a ≤ n ∧ (n + 1024) % 2 ^ 64 ≤ (a + size) % 2 ^ 64)) ↔
      if a + size = 2 ^ 64 then n ≤ 2 ^ 64 - 1024
      else n < a ∨ b ≤ n ∧ n + 1024 ≤ a + size ∨ b + size < n + 1024 := by
  -- the end of the location wraps where it is at the end of the address space
  have hwrap : (n + 1024) % 2 ^ 64 = n + 1024 ∧ n + 1024 < 2 ^ 64 ∨
      (n + 1024) % 2 ^ 64 + 2 ^ 64 = n + 1024 := by
    rcases Nat.lt_or_ge (n + 1024) (2 ^ 64) with hlt | hge
    · exact .inl ⟨Nat.mod_eq_of_lt hlt, hlt⟩
    · refine .inr ?_
      rw [Nat.mod_eq_sub_mod hge, Nat.mod_eq_of_lt (by omega), Nat.sub_add_cancel hge]
  generalize (n + 1024) % 2 ^ 64 = e at hwrap ⊢
  rcases hend with htop | hbelow
  · have hb' : (b + size) % 2 ^ 64 = b - a := by
      rw [Nat.mod_eq_sub_mod (by omega), Nat.mod_eq_of_lt (by omega)]
      omega
    rw [if_pos htop, htop, Nat.mod_self, hb']
    rcases hwrap with ⟨rfl, hlt⟩ | he
    · exact iff_of_true (iff_of_false (by omega) (by omega)) (by omega)
    · have hleft : b ≤ n ∧ e ≤ b - a := ⟨by omega, by omega⟩
      have hright : a ≤ n := by omega
      rw [iff_true_left hleft, and_iff_right hright]
      omega
  · have hne : a + size ≠ 2 ^ 64 := by omega
    rw [if_neg hne, Nat.mod_eq_of_lt (a := b + size) (by omega),
      Nat.mod_eq_of_lt (a := a + size) (by omega)]
    rcases hwrap with ⟨rfl, hlt⟩ | he
    · rcases Nat.lt_or_ge n a with hna | hna
      · exact iff_of_true (iff_of_false (by omega) (by omega)) (.inl hna)
      · rcases Nat.lt_or_ge (b + size) (n + 1024) with hbn | hbn
        · exact iff_of_true (iff_of_false (by omega) (by omega)) (.inr (.inr hbn))
        · rw [and_iff_left hbn, and_iff_right hna]
          omega
    · exact iff_of_true (iff_of_true ⟨by omega, by omega⟩ ⟨by omega, by omega⟩)
        (.inr (.inr (by omega)))

/-- The ranges from an unaligned base and from the aligned one. -/
theorem covers_iff_of_not_dvd (h : ¬2 ^ f.sizeField ∣ f.base) {n : Nat} (hn : n < 2 ^ 64) :
    (f.Covers f.base n ↔ f.Covers f.alignedBase n) ↔
      if f.alignedBase + 2 ^ f.sizeField = 2 ^ 64 then n ≤ 2 ^ 64 - 1024
      else n < f.alignedBase ∨ f.base ≤ n ∧ n + 1024 ≤ f.alignedBase + 2 ^ f.sizeField ∨
        f.base + 2 ^ f.sizeField < n + 1024 := by
  -- the size is a multiple of the unit of the base, and a divisor of the address space
  have hsize : 10 < f.sizeField := by
    by_contra hle
    have hdvd : 2 ^ f.sizeField ∣ 1024 := Nat.pow_dvd_pow 2 (Nat.le_of_not_lt hle)
    exact h (hdvd.trans (Nat.dvd_mul_left _ _))
  have hunit : 1024 ∣ 2 ^ f.sizeField := Nat.pow_dvd_pow 2 hsize.le
  obtain ⟨m, hm⟩ : 2 ^ f.sizeField ∣ 2 ^ 64 := Nat.pow_dvd_pow 2 f.sizeField_lt.le
  have hmod : f.base % 2 ^ f.sizeField ≠ 0 := fun hzero => h (Nat.dvd_of_mod_eq_zero hzero)
  have hmodlt : f.base % 2 ^ f.sizeField < 2 ^ f.sizeField := Nat.mod_lt _ (Nat.two_pow_pos _)
  have hspan : f.alignedBase + f.base % 2 ^ f.sizeField = f.base :=
    Nat.div_add_mod' f.base (2 ^ f.sizeField)
  have hquot : f.base / 2 ^ f.sizeField < m := by
    apply Nat.div_lt_of_lt_mul
    rw [← hm]
    exact f.base_lt
  have hend : f.alignedBase + 2 ^ f.sizeField = 2 ^ 64 ∨
      f.alignedBase + 2 * 2 ^ f.sizeField ≤ 2 ^ 64 := by
    rw [hm, alignedBase, ← Nat.succ_mul, ← Nat.add_mul, Nat.mul_comm (2 ^ f.sizeField) m]
    rcases Nat.eq_or_lt_of_le hquot with heq | hlt
    · exact .inl (congrArg (· * 2 ^ f.sizeField) heq)
    · exact .inr (Nat.mul_le_mul_right _ hlt)
  have haligned : f.alignedBase % 1024 = 0 :=
    Nat.mod_eq_zero_of_dvd (hunit.trans (Nat.dvd_mul_left _ _))
  have hbase : f.base % 1024 = 0 := Nat.mul_mod_left _ _
  exact comparisons_iff haligned hbase (Nat.mod_eq_zero_of_dvd hunit) (by omega) (by omega) hend hn

/-- The harness checks a location as the kernel does just if the base is aligned, or the alignment
does not matter for the location. -/
theorem stubCheck_eq_iff : (stubCheckUtcbLocation f.raw loc =
    f.isRangeInFpage loc (loc + BitVec.ofNat 64 sizeofUtcb)) ↔ f.ChecksAlike loc.toNat := by
  have hlt := loc.isLt
  rw [Bool.eq_iff_iff, stubCheck_iff, isRangeInFpage_iff, ChecksAlike]
  by_cases hsize : f.sizeField = 0
  · have hno : f.isCompleteFpage = false := by simp [isCompleteFpage, hsize]
    have hbase : f.base % 1024 = 0 := Nat.mul_mod_left _ _
    have hbaselt := f.base_lt
    rw [if_pos hsize, if_pos hsize, hno]
    simp only [Bool.false_eq_true, false_or, Covers, hsize]
    omega
  · rw [if_neg hsize, if_neg hsize]
    by_cases hdvd : 2 ^ f.sizeField ∣ f.base
    · rw [if_pos hdvd, alignedBase_of_dvd hdvd]
      exact iff_of_true .rfl trivial
    · rw [if_neg hdvd, not_complete_of_not_dvd hdvd]
      simp only [Bool.false_eq_true, false_or]
      exact covers_iff_of_not_dvd hdvd hlt

end Fpage

theorem checkUtcbLocation_apply {sp : SpacePtr} (hsp : (s.tcb p).space = some sp) :
    checkUtcbLocation p loc s = .ok ((s.space sp).checkUtcbLocation loc, s) := by
  simp [checkUtcbLocation, bind_apply, readTcb, readSpace, derefSpace, hsp]

/-- The stub checks a location of a thread as the kernel does just if the area is aligned, or the
alignment does not matter for the location. -/
theorem stubCheck_agrees_iff {sp : SpacePtr} (hsp : (s.tcb p).space = some sp) :
    checkUtcbLocation p loc s = .ok (stubCheckUtcbLocation (s.space sp).utcbArea.raw loc, s) ↔
      (s.space sp).utcbArea.ChecksAlike loc.toNat := by
  rw [checkUtcbLocation_apply hsp, ← Fpage.stubCheck_eq_iff]
  constructor
  · intro heq
    injection heq with heq
    exact (congrArg Prod.fst heq).symm
  · intro heq
    rw [heq]
    rfl

/-- The areas of the harness are aligned. -/
theorem harness_stubCheck_agrees : checkUtcbLocation (harnessTcb 67) (2 ^ 42) .harness =
    .ok (stubCheckUtcbLocation (KState.harness.space (.heap 67)).utcbArea.raw (2 ^ 42),
      .harness) :=
  (stubCheck_agrees_iff (by decide +kernel)).mpr (by decide +kernel)

/-- An area of two kilobytes at one kilobyte: the kernel accepts the location 0, the stub does
not. -/
theorem exists_not_stubCheck_agrees : ∃ (s : KState) (p : TcbPtr) (sp : SpacePtr) (loc : Word),
    (s.tcb p).space = some sp ∧ checkUtcbLocation p loc s = .ok (true, s) ∧
      stubCheckUtcbLocation (s.space sp).utcbArea.raw loc = false :=
  ⟨{ KState.harness with space := fun _ => ⟨⟨0⟩, ⟨11 <<< 4 ||| 1 <<< 10⟩, 2, []⟩ }, harnessTcb 67,
    .heap 67, 0, by decide +kernel, rfl, by decide⟩

end L4Thread
