import L4Thread.Theory.MapRange
import L4Thread.Theory.UnmapRights

/-!
# Flexpages as sets of addresses

What the comparisons on flexpages decide about the sets of addresses that the flexpages stand for.
The end of a flexpage is computed in wrapping arithmetic, so it is 0 for the last flexpage of a
size, and just one of the comparisons looks for the complete flexpage.
-/

namespace L4Thread

namespace Fpage

variable {f g : Fpage} {base start stop addr : Word} {size : Nat} {r w x : Bool}

/-! ## The fields of a flexpage that was set -/

theorem toNat_set (hsize : size < 64) :
    (set base size).raw.toNat = base.toNat / 1024 * 1024 + size * 16 := by
  have hlow : (BitVec.ofNat 64 (size % 64 * 16)).toNat = size * 16 := by
    rw [Nat.mod_eq_of_lt hsize, BitVec.toNat_ofNat, Nat.mod_eq_of_lt (by omega)]
  have hbase : (base >>> 10 <<< 10).toNat = 2 ^ 10 * (base.toNat / 2 ^ 10) := by
    have hlt := base.isLt
    rw [BitVec.toNat_shiftLeft, BitVec.toNat_ushiftRight, Nat.shiftRight_eq_div_pow,
      Nat.shiftLeft_eq]
    omega
  rw [set, BitVec.toNat_or, hlow, hbase, ← Nat.two_pow_add_eq_or_of_lt (by omega)]
  omega

theorem toNat_setWith (hsize : size < 64) : (setWith base size r w x).raw.toNat =
    base.toNat / 1024 * 1024 + size * 16 + (4 * r.toNat + 2 * w.toNat + x.toNat) := by
  have hr := r.toNat_le
  have hw := w.toNat_le
  have hx := x.toNat_le
  have hlow : (BitVec.ofNat 64 (4 * r.toNat + 2 * w.toNat + x.toNat)).toNat =
      4 * r.toNat + 2 * w.toNat + x.toNat := by
    rw [BitVec.toNat_ofNat, Nat.mod_eq_of_lt (by omega)]
  have hmul : base.toNat / 1024 * 1024 + size * 16 =
      2 ^ 4 * (base.toNat / 1024 * 64 + size) := by omega
  rw [setWith, BitVec.toNat_or, hlow, toNat_set hsize, hmul,
    ← Nat.two_pow_add_eq_or_of_lt (by omega)]

theorem sizeField_setWith (hsize : size < 64) : (setWith base size r w x).sizeField = size := by
  have hr := r.toNat_le
  have hw := w.toNat_le
  have hx := x.toNat_le
  rw [sizeField, toNat_setWith hsize]
  omega

theorem base_setWith (hsize : size < 64) :
    (setWith base size r w x).base = base.toNat / 1024 * 1024 := by
  have hr := r.toNat_le
  have hw := w.toNat_le
  have hx := x.toNat_le
  rw [Fpage.base, toNat_setWith hsize]
  omega

theorem toNat_getAddress_setWith (hmin : 10 ≤ size) (hsize : size < 64) :
    (setWith base size r w x).getAddress.toNat = base.toNat / 2 ^ size * 2 ^ size := by
  have hfield := @sizeField_setWith base size r w x hsize
  obtain ⟨k, hk⟩ := Nat.exists_eq_add_of_le hmin
  have hpow : 2 ^ size = 1024 * 2 ^ k := by rw [hk, Nat.pow_add]
  rw [toNat_getAddress (by omega), alignedBase, hfield, base_setWith hsize, hpow,
    ← Nat.div_div_eq_div_mul, ← Nat.div_div_eq_div_mul, Nat.mul_div_cancel _ (by decide)]

theorem getSizeLog2_setWith (hmin : 10 ≤ size) (hsize : size < 64) :
    (setWith base size r w x).getSizeLog2 = size := by
  have hfield := @sizeField_setWith base size r w x hsize
  have hne : (setWith base size r w x).isCompleteFpage = false := by
    rw [isCompleteFpage, hfield, Bool.and_eq_false_iff]
    exact .inl (beq_false_of_ne (by omega))
  rw [getSizeLog2, hne, hfield]
  rfl

theorem toNat_getRwx_setWith (hsize : size < 64) :
    (setWith base size r w x).getRwx.toNat = 4 * r.toNat + 2 * w.toNat + x.toNat := by
  have hr := r.toNat_le
  have hw := w.toNat_le
  have hx := x.toNat_le
  have hmask : (setWith base size r w x).getRwx.toNat =
      (setWith base size r w x).raw.toNat % 2 ^ 3 := Mask.toNat_and_low (n := 3) (by decide)
  rw [hmask, toNat_setWith hsize]
  omega

/-! ## The addresses of a flexpage -/

/-- The complete flexpage has all addresses, a nil flexpage none. -/
def addresses (f : Fpage) : Set Nat :=
  if f.isCompleteFpage then Set.Iio (2 ^ 64)
  else if f.sizeField = 0 then ∅
  else Set.Ico f.alignedBase (f.alignedBase + 2 ^ f.sizeField)

/-- What the comparisons take for the first address. -/
def lower (f : Fpage) : Nat := if f.sizeField = 0 then 0 else f.alignedBase

/-- The end of the flexpage, before it wraps. -/
def upper (f : Fpage) : Nat := f.lower + 2 ^ f.sizeField

theorem toNat_getAddress_eq (f : Fpage) : f.getAddress.toNat = f.lower := by
  rw [lower]
  split
  · exact toNat_getAddress_zero ‹_›
  · exact toNat_getAddress ‹_›

theorem toNat_end (f : Fpage) : (f.getAddress + f.getSize).toNat = f.upper % 2 ^ 64 := by
  rw [BitVec.toNat_add, toNat_getAddress_eq, toNat_getSize, upper]

theorem lower_lt_upper (f : Fpage) : f.lower < f.upper :=
  Nat.lt_add_of_pos_right (Nat.two_pow_pos _)

theorem isCompleteFpage_iff : f.isCompleteFpage = true ↔ f.sizeField = 1 ∧ f.lower = 0 := by
  rw [isCompleteFpage, Bool.and_eq_true, beq_iff_eq, beq_iff_eq, and_congr_right_iff]
  intro hsize
  have hbase : f.lower = f.base := by
    rw [lower, if_neg (by omega), alignedBase_of_dvd]
    rw [hsize, base_eq_mul]
    exact Nat.dvd_mul_left_of_dvd (by decide) _
  rw [hbase, ← toNat_getBase, ← BitVec.toNat_inj]
  rfl

/-- The end of a flexpage is the end of memory, or lies at least a word below it. -/
theorem upper_le (f : Fpage) : f.upper = 2 ^ 64 ∨ f.upper + 8 ≤ 2 ^ 64 := by
  have hraw := f.raw.isLt
  rcases Nat.lt_or_ge f.sizeField 10 with hsmall | hlarge
  · -- the base is a multiple of 1024
    have hle : f.lower ≤ f.base := by
      rw [lower]
      split
      · exact Nat.zero_le _
      · exact Nat.div_mul_le_self _ _
    have hpow : 2 ^ f.sizeField ≤ 2 ^ 9 := Nat.pow_le_pow_right (by decide) (by omega)
    have hbase := f.base_eq_mul
    rw [upper]
    omega
  · obtain ⟨k, hk⟩ := Nat.exists_eq_add_of_le f.sizeField_lt.le
    have hmem : 2 ^ 64 = 2 ^ k * 2 ^ f.sizeField := by rw [hk, Nat.pow_add, Nat.mul_comm]
    have hpow : 2 ^ 10 ≤ 2 ^ f.sizeField := Nat.pow_le_pow_right (by decide) hlarge
    have hupper : f.upper = (f.base / 2 ^ f.sizeField + 1) * 2 ^ f.sizeField := by
      rw [upper, lower, if_neg (by omega), alignedBase, Nat.succ_mul]
    have hlt : f.base / 2 ^ f.sizeField < 2 ^ k := by
      rw [Nat.div_lt_iff_lt_mul (Nat.two_pow_pos _), ← hmem]
      exact f.base_lt
    rcases Nat.lt_or_ge (f.base / 2 ^ f.sizeField + 1) (2 ^ k) with hin | hout
    · have hle := Nat.mul_le_mul_right (2 ^ f.sizeField) (Nat.succ_le_of_lt hin)
      rw [Nat.succ_mul, ← hupper, ← hmem] at hle
      omega
    · have heq : f.base / 2 ^ f.sizeField + 1 = 2 ^ k := Nat.le_antisymm hlt hout
      left
      rw [hupper, heq, ← hmem]

theorem mem_addresses (hc : f.isCompleteFpage = false) {a : Nat} :
    a ∈ f.addresses ↔ f.sizeField ≠ 0 ∧ f.lower ≤ a ∧ a < f.upper := by
  rw [addresses, if_neg (Bool.eq_false_iff.mp hc), upper, lower]
  split
  · simp [*]
  · simp [*]

/-! ## The comparisons -/

theorem isRangeInFpage_eq : f.isRangeInFpage start stop = true ↔ f.isCompleteFpage = true ∨
    f.lower ≤ start.toNat ∧ stop.toNat ≤ f.upper % 2 ^ 64 := by
  rw [isRangeInFpage, Bool.or_eq_true, Bool.and_eq_true, decide_eq_true_eq, decide_eq_true_eq,
    BitVec.le_def, BitVec.le_def, toNat_end, toNat_getAddress_eq]

theorem isAddrInFpage_eq : f.isAddrInFpage addr = true ↔ f.isCompleteFpage = true ∨
    f.lower ≤ addr.toNat ∧ (addr.toNat + 8) % 2 ^ 64 ≤ f.upper % 2 ^ 64 := by
  rw [isAddrInFpage, isRangeInFpage_eq, BitVec.toNat_add]
  rfl

theorem isOverlapping_eq : f.isOverlapping g = true ↔
    if g.lower < f.lower then f.lower < g.upper % 2 ^ 64 else g.lower < f.upper % 2 ^ 64 := by
  simp only [isOverlapping, BitVec.lt_def, toNat_end, toNat_getAddress_eq]
  split <;> rw [decide_eq_true_eq]

/-- A range is compared right: a proper one with a flexpage whose end does not wrap or that it
starts below, an empty one inside or at the end of such a flexpage. -/
def RangeSafe (f : Fpage) (start stop : Word) : Prop :=
  f.isCompleteFpage = true ∨
    if start = stop then f.upper < 2 ^ 64 ∧ f.lower ≤ start.toNat ∧ start.toNat ≤ f.upper
    else if f.sizeField = 0 then 1 < stop.toNat
    else f.upper < 2 ^ 64 ∨ start.toNat < f.lower

/-- An address is compared right if its word does not cross the end of the flexpage, nor the end of
memory. -/
def AddrSafe (f : Fpage) (addr : Word) : Prop :=
  f.isCompleteFpage = true ∨
    if f.sizeField = 0 then addr.toNat + 8 < 2 ^ 64 ∨ 2 ^ 64 + 1 < addr.toNat + 8
    else if f.upper < 2 ^ 64 then
      addr.toNat < f.lower ∨ addr.toNat + 8 ≤ f.upper ∨
        f.upper ≤ addr.toNat ∧ (addr.toNat + 8 < 2 ^ 64 ∨ 2 ^ 64 + f.upper < addr.toNat + 8)
    else addr.toNat < f.lower ∨ addr.toNat + 8 = 2 ^ 64

/-- Two flexpages are compared right if the end of the lower one does not wrap. With a nil flexpage
the other one may not be at 0, and with the complete flexpage it has to be. -/
def OverlapSafe (f g : Fpage) : Prop :=
  if f.sizeField = 0 ∨ g.sizeField = 0 then ¬(f.lower = 0 ∧ g.lower = 0)
  else if f.isCompleteFpage ∨ g.isCompleteFpage then f.lower = 0 ∧ g.lower = 0
  else if g.lower < f.lower then g.upper < 2 ^ 64
  else f.upper < 2 ^ 64

instance : Decidable (f.RangeSafe start stop) := by
  unfold RangeSafe
  infer_instance

instance : Decidable (f.AddrSafe addr) := by
  unfold AddrSafe
  infer_instance

instance : Decidable (f.OverlapSafe g) := by
  unfold OverlapSafe
  infer_instance

theorem addresses_complete (hc : f.isCompleteFpage = true) : f.addresses = Set.Iio (2 ^ 64) :=
  if_pos hc

theorem addresses_nil (hs : f.sizeField = 0) : f.addresses = ∅ := by
  have hc : f.isCompleteFpage = false := by
    rw [isCompleteFpage, hs]
    rfl
  rw [addresses, hc, if_pos hs]
  rfl

theorem addresses_eq (hc : f.isCompleteFpage = false) (hs : f.sizeField ≠ 0) :
    f.addresses = Set.Ico f.lower f.upper := by
  rw [addresses, hc, if_neg hs, upper, lower, if_neg hs]
  rfl

theorem lower_nil (hs : f.sizeField = 0) : f.lower = 0 := if_pos hs

theorem upper_nil (hs : f.sizeField = 0) : f.upper = 1 := by
  rw [upper, lower_nil hs, hs]
  rfl

theorem upper_complete (hc : f.isCompleteFpage = true) : f.upper = 2 := by
  obtain ⟨hsize, hlower⟩ := isCompleteFpage_iff.mp hc
  rw [upper, hlower, hsize]
  rfl

theorem upper_le_lower_add (f : Fpage) : f.upper ≤ f.lower + 2 ^ 63 := by
  have hpow : 2 ^ f.sizeField ≤ 2 ^ 63 :=
    Nat.pow_le_pow_right (by decide) (Nat.le_of_lt_succ f.sizeField_lt)
  exact Nat.add_le_add_left hpow _

theorem two_dvd_lower (f : Fpage) : 2 ∣ f.lower := by
  rw [lower]
  split
  · exact Nat.dvd_zero 2
  · obtain ⟨k, hk⟩ := Nat.exists_eq_succ_of_ne_zero ‹_›
    rw [alignedBase, hk, Nat.pow_succ]
    exact Nat.dvd_mul_left_of_dvd (Nat.dvd_mul_left _ _) _

theorem lower_mem (hs : f.sizeField ≠ 0) : f.lower ∈ f.addresses := by
  cases hc : f.isCompleteFpage with
  | true =>
    rw [addresses_complete hc, (isCompleteFpage_iff.mp hc).2]
    exact Nat.two_pow_pos 64
  | false =>
    rw [addresses_eq hc hs]
    exact ⟨le_rfl, f.lower_lt_upper⟩

theorem addresses_subset (f : Fpage) : f.addresses ⊆ Set.Iio (2 ^ 64) := by
  have hupper := f.upper_le
  cases hc : f.isCompleteFpage with
  | true => rw [addresses_complete hc]
  | false =>
    by_cases hs : f.sizeField = 0
    · rw [addresses_nil hs]
      exact Set.empty_subset _
    · rw [addresses_eq hc hs]
      intro a ha
      have hlt : a < f.upper := ha.2
      exact hlt.trans_le (by omega)

theorem isRangeInFpage_iff_subset (hle : start ≤ stop) :
    (f.isRangeInFpage start stop = true ↔ Set.Ico start.toNat stop.toNat ⊆ f.addresses) ↔
      f.RangeSafe start stop := by
  have hstop := stop.isLt
  cases hc : f.isCompleteFpage with
  | true =>
    have hsub : Set.Ico start.toNat stop.toNat ⊆ f.addresses := by
      rw [addresses_complete hc]
      exact fun a ha => ha.2.trans hstop
    exact iff_of_true (iff_of_true (isRangeInFpage_eq.mpr (.inl hc)) hsub) (.inl hc)
  | false =>
    have hupper := f.upper_le
    have hsize := f.upper_le_lower_add
    rw [isRangeInFpage_eq, RangeSafe, hc]
    simp only [Bool.false_eq_true, false_or]
    by_cases heq : start = stop
    · rw [if_pos heq, heq, Set.Ico_self]
      simp only [Set.empty_subset, iff_true]
      omega
    · have hlt : start.toNat < stop.toNat :=
        Nat.lt_of_le_of_ne hle fun h => heq (BitVec.eq_of_toNat_eq h)
      rw [if_neg heq]
      by_cases hs : f.sizeField = 0
      · rw [if_pos hs, addresses_nil hs, lower_nil hs, upper_nil hs, Set.subset_empty_iff,
          Set.Ico_eq_empty_iff]
        omega
      · rw [if_neg hs, addresses_eq hc hs, Set.Ico_subset_Ico_iff hlt]
        omega

theorem isAddrInFpage_iff_mem :
    (f.isAddrInFpage addr = true ↔ addr.toNat ∈ f.addresses) ↔ f.AddrSafe addr := by
  have haddr := addr.isLt
  cases hc : f.isCompleteFpage with
  | true =>
    have hmem : addr.toNat ∈ f.addresses := by
      rw [addresses_complete hc]
      exact haddr
    exact iff_of_true (iff_of_true (isAddrInFpage_eq.mpr (.inl hc)) hmem) (.inl hc)
  | false =>
    have hupper := f.upper_le
    have hpos := f.lower_lt_upper
    rw [isAddrInFpage_eq, AddrSafe, hc]
    simp only [Bool.false_eq_true, false_or]
    by_cases hs : f.sizeField = 0
    · rw [if_pos hs, addresses_nil hs, lower_nil hs, upper_nil hs, Set.mem_empty_iff_false,
        iff_false]
      omega
    · rw [if_neg hs, addresses_eq hc hs, Set.mem_Ico]
      split <;> omega

theorem isOverlapping_iff_inter :
    (f.isOverlapping g = true ↔ (f.addresses ∩ g.addresses).Nonempty) ↔ f.OverlapSafe g := by
  have hfupper := f.upper_le
  have hgupper := g.upper_le
  have hfpos := f.lower_lt_upper
  have hgpos := g.lower_lt_upper
  have hfsize := f.upper_le_lower_add
  have hgsize := g.upper_le_lower_add
  rw [isOverlapping_eq, OverlapSafe]
  by_cases hnil : f.sizeField = 0 ∨ g.sizeField = 0
  · have hempty : ¬(f.addresses ∩ g.addresses).Nonempty := by
      rcases hnil with hf | hg
      · simp [addresses_nil hf]
      · simp [addresses_nil hg]
    rw [if_pos hnil, iff_false_right hempty]
    rcases hnil with hf | hg
    · rw [lower_nil hf, upper_nil hf]
      split <;> omega
    · rw [lower_nil hg, upper_nil hg]
      split <;> omega
  · have hfnil : f.sizeField ≠ 0 := fun h => hnil (.inl h)
    have hgnil : g.sizeField ≠ 0 := fun h => hnil (.inr h)
    rw [if_neg hnil]
    by_cases hcomplete : f.isCompleteFpage = true ∨ g.isCompleteFpage = true
    · have hinter : (f.addresses ∩ g.addresses).Nonempty := by
        rcases hcomplete with hf | hg
        · rw [addresses_complete hf]
          exact ⟨g.lower, g.addresses_subset (lower_mem hgnil), lower_mem hgnil⟩
        · rw [addresses_complete hg]
          exact ⟨f.lower, lower_mem hfnil, f.addresses_subset (lower_mem hfnil)⟩
      have hfeven := f.two_dvd_lower
      have hgeven := g.two_dvd_lower
      rw [if_pos hcomplete, iff_true_right hinter]
      rcases hcomplete with hf | hg
      · rw [upper_complete hf, (isCompleteFpage_iff.mp hf).2]
        split <;> omega
      · rw [upper_complete hg, (isCompleteFpage_iff.mp hg).2]
        split <;> omega
    · have hf : f.isCompleteFpage = false := Bool.eq_false_iff.mpr fun h => hcomplete (.inl h)
      have hg : g.isCompleteFpage = false := Bool.eq_false_iff.mpr fun h => hcomplete (.inr h)
      rw [if_neg hcomplete, addresses_eq hf hfnil, addresses_eq hg hgnil, Set.Ico_inter_Ico,
        Set.nonempty_Ico]
      split <;> omega

/-! ## The algebra -/

/-- The operations on flexpages agree with the sets of addresses. -/
structure SetAlgebra (base : Word) (size : Nat) (r w x : Bool) (f g : Fpage)
    (start stop addr : Word) : Prop where
  address : (setWith base size r w x).getAddress.toNat = base.toNat / 2 ^ size * 2 ^ size
  sizeLog2 : (setWith base size r w x).getSizeLog2 = size
  rights : (setWith base size r w x).getRwx.toNat = 4 * r.toNat + 2 * w.toNat + x.toNat
  range : f.isRangeInFpage start stop = true ↔ Set.Ico start.toNat stop.toNat ⊆ f.addresses
  member : f.isAddrInFpage addr = true ↔ addr.toNat ∈ f.addresses
  overlap : f.isOverlapping g = true ↔ (f.addresses ∩ g.addresses).Nonempty
  symm : f.isOverlapping g = g.isOverlapping f

theorem setAlgebra_iff (hmin : 10 ≤ size) (hmax : size ≤ 63) (hle : start ≤ stop) :
    SetAlgebra base size r w x f g start stop addr ↔
      f.RangeSafe start stop ∧ f.AddrSafe addr ∧ f.OverlapSafe g ∧ g.OverlapSafe f := by
  constructor
  · intro h
    refine ⟨(isRangeInFpage_iff_subset hle).mp h.range, isAddrInFpage_iff_mem.mp h.member,
      isOverlapping_iff_inter.mp h.overlap, isOverlapping_iff_inter.mp ?_⟩
    rw [← h.symm, Set.inter_comm]
    exact h.overlap
  · rintro ⟨hrange, haddr, hfg, hgf⟩
    have hlt : size < 64 := Nat.lt_succ_of_le hmax
    have hf := isOverlapping_iff_inter.mpr hfg
    have hg := isOverlapping_iff_inter.mpr hgf
    rw [Set.inter_comm] at hg
    exact
      { address := toNat_getAddress_setWith hmin hlt
        sizeLog2 := getSizeLog2_setWith hmin hlt
        rights := toNat_getRwx_setWith hlt
        range := (isRangeInFpage_iff_subset hle).mpr hrange
        member := isAddrInFpage_iff_mem.mpr haddr
        overlap := hf
        symm := Bool.eq_iff_iff.mpr (hf.trans hg.symm) }

/-- Two pages side by side. -/
theorem exists_setAlgebra : SetAlgebra 0x4fff 12 true false true (set 0x4000 12) (set 0x5000 12)
    0x4000 0x5000 0x4ff8 :=
  (setAlgebra_iff (by decide) (by decide) (by decide)).mpr (by decide)

/-- For the last page of memory no comparison comes out right, and the complete flexpage does not
overlap it. -/
theorem exists_not_setAlgebra : ∃ (f : Fpage) (start stop addr : Word), start ≤ stop ∧
    ¬(f.isRangeInFpage start stop = true ↔ Set.Ico start.toNat stop.toNat ⊆ f.addresses) ∧
    ¬(f.isAddrInFpage addr = true ↔ addr.toNat ∈ f.addresses) ∧
    ¬(f.isOverlapping complete = true ↔ (f.addresses ∩ complete.addresses).Nonempty) := by
  refine ⟨set 0xfffffffffffff000 12, 0xfffffffffffff000, 0xfffffffffffff800, 0xfffffffffffff100,
    by decide, ?_, ?_, ?_⟩
  · rw [isRangeInFpage_iff_subset (by decide)]
    decide
  · rw [isAddrInFpage_iff_mem]
    decide
  · rw [isOverlapping_iff_inter]
    decide

end Fpage

end L4Thread
