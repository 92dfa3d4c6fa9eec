import L4Thread.Lib.Mask
import L4Thread.Theory.SpaceControl

/-!
# Clipping of string copies

`get_copy_limit` has to cut a copy at the end of the area that its address is in. In the user area
it takes the last byte for the end, and in both areas an end that wraps is compared as if it lay
below the address.
-/

namespace L4Thread

variable {addr limit : Word} {a b c n : Nat}

/-- The area of an address: the user area, or the window of the copy area around it. -/
def copyRange (addr : Word) : Set Nat :=
  if Space.isUserArea addr then userArea
  else
    let start := addr.toNat / copyAreaSize.toNat * copyAreaSize.toNat
    Set.Ico start (start + copyAreaSize.toNat)

/-- The bytes from an address to the end of its area. -/
def bytesLeft (addr : Word) : Nat :=
  if Space.isUserArea addr then userAreaEnd.toNat + 1 - addr.toNat
  else copyAreaSize.toNat - addr.toNat % copyAreaSize.toNat

theorem ico_subset_ico_iff (hb : b ≤ a) (hc : a ≤ c) :
    Set.Ico a (a + n) ⊆ Set.Ico b c ↔ n ≤ c - a := by
  rcases Nat.eq_zero_or_pos n with rfl | hpos
  · simp
  · rw [Set.Ico_subset_Ico_iff (by omega)]
    omega

theorem userArea_eq : userArea = Set.Ico 0 (2 ^ 40) := by
  ext a
  exact Nat.lt_succ_iff.symm.trans ⟨fun h => ⟨Nat.zero_le a, h⟩, fun h => h.2⟩

/-- The bytes left are the longest copy that stays in the area. -/
theorem range_subset_iff :
    Set.Ico addr.toNat (addr.toNat + n) ⊆ copyRange addr ↔ n ≤ bytesLeft addr := by
  rw [copyRange, bytesLeft]
  split
  · next huser =>
    rw [userArea_eq, ico_subset_ico_iff (Nat.zero_le _) (Space.isUserArea_iff.mp huser).le]
    rfl
  · have hdiv := Nat.div_add_mod' addr.toNat copyAreaSize.toNat
    have hmod := Nat.mod_lt addr.toNat (show 0 < copyAreaSize.toNat by decide)
    rw [ico_subset_ico_iff (by omega) (by omega)]
    omega

/-- What a clipped length is for: a copy of it stays in the area, and no longer one that was asked
for does. -/
theorem isGreatest_min : IsGreatest
    {n | n ≤ limit.toNat ∧ Set.Ico addr.toNat (addr.toNat + n) ⊆ copyRange addr}
    (min limit.toNat (bytesLeft addr)) := by
  constructor
  · exact ⟨Nat.min_le_left _ _, range_subset_iff.mpr (Nat.min_le_right _ _)⟩
  · rintro n ⟨hlimit, hsub⟩
    exact Nat.le_min.mpr ⟨hlimit, range_subset_iff.mp hsub⟩

/-! ## The two areas -/

theorem bytesLeft_user (h : addr.toNat < 2 ^ 40) : bytesLeft addr = 2 ^ 40 - addr.toNat := by
  rw [bytesLeft, if_pos (Space.isUserArea_iff.mpr h)]
  rfl

theorem copyAreaStart_eq : copyAreaStart.toNat = 2 ^ 64 - 2 ^ 29 := by decide

theorem copyAreaEnd_eq : copyAreaEnd.toNat = 2 ^ 64 - 1 := by decide

theorem isCopyArea_iff : isCopyArea addr = true ↔
    2 ^ 64 - 2 ^ 29 ≤ addr.toNat ∧ addr.toNat < 2 ^ 64 - 1 := by
  rw [isCopyArea, Bool.and_eq_true, decide_eq_true_eq, decide_eq_true_eq, BitVec.le_def,
    BitVec.lt_def, copyAreaStart_eq, copyAreaEnd_eq]

theorem not_isUserArea (h : 2 ^ 64 - 2 ^ 29 ≤ addr.toNat) : ¬Space.isUserArea addr = true := by
  rw [Space.isUserArea_iff]
  omega

theorem bytesLeft_copy (h : 2 ^ 64 - 2 ^ 29 ≤ addr.toNat) :
    bytesLeft addr = 2 ^ 64 - addr.toNat := by
  have hlt := addr.isLt
  have hsize : copyAreaSize.toNat = 2 ^ 29 := rfl
  rw [bytesLeft, if_neg (not_isUserArea h), hsize]
  omega

theorem toNat_align {x : Word} :
    (x &&& ~~~(copyAreaSize - 1)).toNat = x.toNat / 2 ^ 29 * 2 ^ 29 :=
  Mask.toNat_and_not_low (n := 29) (by decide)

theorem toNat_getCopyLimit_user (h : addr.toNat < 2 ^ 40) : (getCopyLimit addr limit).toNat =
    if 2 ^ 40 - 1 ≤ (addr.toNat + limit.toNat) % 2 ^ 64 then 2 ^ 40 - 1 - addr.toNat
    else limit.toNat := by
  have hend : userAreaEnd.toNat = 2 ^ 40 - 1 := by decide
  have hle : (userAreaEnd ≤ addr + limit) ↔ 2 ^ 40 - 1 ≤ (addr.toNat + limit.toNat) % 2 ^ 64 := by
    rw [BitVec.le_def, BitVec.toNat_add, hend]
  rw [getCopyLimit, if_pos (Space.isUserArea_iff.mpr h)]
  simp only [hle]
  split
  · have hle : addr ≤ userAreaEnd := by
      rw [BitVec.le_def, hend]
      omega
    rw [BitVec.toNat_sub_of_le hle, hend]
  · rfl

theorem toNat_getCopyLimit_copy (h : 2 ^ 64 - 2 ^ 29 ≤ addr.toNat) :
    (getCopyLimit addr limit).toNat =
      if (addr.toNat + limit.toNat) % 2 ^ 64 < 2 ^ 64 - 2 ^ 29 then
        if addr.toNat = 2 ^ 64 - 2 ^ 29 then 0 else 2 ^ 64 - addr.toNat
      else limit.toNat := by
  have hlt := addr.isLt
  have hne : (addr &&& ~~~(copyAreaSize - 1) ≠ (addr + limit) &&& ~~~(copyAreaSize - 1)) ↔
      (addr.toNat + limit.toNat) % 2 ^ 64 < 2 ^ 64 - 2 ^ 29 := by
    rw [ne_eq, ← BitVec.toNat_inj, toNat_align, toNat_align, BitVec.toNat_add]
    omega
  rw [getCopyLimit, if_neg (not_isUserArea h)]
  simp only [hne]
  split
  · have hlow : (copyAreaSize - 1).toNat = 2 ^ 29 - 1 := by decide
    rw [BitVec.toNat_sub, toNat_align, BitVec.toNat_add, hlow]
    split <;> omega
  · rfl

/-! ## Where the clipping is exact -/

/-- In the user area the copy has to end below the last byte; in the copy area a copy that leaves
the window may neither start at its first byte nor wrap back into it. -/
def ClipSafe (addr limit : Word) : Prop :=
  if Space.isUserArea addr then addr.toNat + limit.toNat < 2 ^ 40
  else addr.toNat + limit.toNat < 2 ^ 64 ∨
    addr ≠ copyAreaStart ∧ addr.toNat + limit.toNat < 2 ^ 64 + copyAreaStart.toNat

theorem getCopyLimit_eq_min_iff (harea : Space.isUserArea addr ∨ isCopyArea addr) :
    (getCopyLimit addr limit).toNat = min limit.toNat (bytesLeft addr) ↔
      ClipSafe addr limit := by
  have haddr := addr.isLt
  have hlimit := limit.isLt
  rcases harea with huser | hcopy
  · have hlt := Space.isUserArea_iff.mp huser
    rw [ClipSafe, if_pos huser, toNat_getCopyLimit_user hlt, bytesLeft_user hlt]
    split <;> omega
  · have hle := (isCopyArea_iff.mp hcopy).1
    rw [ClipSafe, if_neg (not_isUserArea hle), toNat_getCopyLimit_copy hle, bytesLeft_copy hle,
      ne_eq, ← BitVec.toNat_inj, copyAreaStart_eq]
    split
    · split <;> omega
    · omega

/-- A copy of half a gigabyte from the middle of the copy area is cut at the end of its window. -/
theorem getCopyLimit_window : isCopyArea 0xfffffffff0000000 ∧
    (getCopyLimit 0xfffffffff0000000 0x20000000).toNat =
      min 0x20000000 (bytesLeft 0xfffffffff0000000) ∧
    bytesLeft 0xfffffffff0000000 = 0x10000000 := by
  refine ⟨by decide, ?_, by decide⟩
  refine (getCopyLimit_eq_min_iff (.inr (by decide))).mpr ?_
  rw [ClipSafe, if_neg (by decide)]
  exact .inr ⟨by decide, by decide⟩

/-- A length that wraps around the end of memory is not clipped at all. -/
theorem exists_not_clipped : ∃ addr limit : Word, Space.isUserArea addr ∧
    getCopyLimit addr limit = limit ∧
      (getCopyLimit addr limit).toNat ≠ min limit.toNat (bytesLeft addr) :=
  ⟨0x1000, 0xfffffffffffff000, by decide, by decide, by decide⟩

end L4Thread
