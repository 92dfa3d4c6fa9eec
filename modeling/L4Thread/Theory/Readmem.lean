import L4Thread.Kernel.Readmem
import L4Thread.Lib.Mask
import L4Thread.Theory.PageTable

/-!
# What reads of user memory return

A word is read right at every alignment, also across the boundary of two pages. The wrapper for
smaller types shifts the word by a number of bytes where it should be one of bits, and it asks for
all bytes of the word to be mapped.
-/

namespace L4Thread

namespace PageTable

variable {pt : PageTable} {mem kernel : Memory} {v v' u : Word} {p : PgPtr} {s r n m : Nat}
  {T : ReadType}

/-! ## Lookups in one page -/

/-- All addresses of the page that is found have the same lookup. -/
theorem lookupFrom_samePage (hr : r ≤ 7) (h : pt.lookupFrom v r (entryPtr v r) = some (p, s))
    (hp : SamePage s v v') : pt.lookupFrom v' r (entryPtr v' r) = some (p, s) := by
  have hs := (lookupFrom_some hr h).2
  induction r with
  | zero =>
    rw [lookupFrom] at h ⊢
    rw [entryPtr_congr hp hs hr]
    exact h
  | succ r ih =>
    rw [lookupFrom, down_entryPtr v hr] at h
    rw [lookupFrom, down_entryPtr v' hr, entryPtr_congr hp hs hr]
    split at h
    · next hval =>
      rw [if_pos hval]
      split at h
      · next hsub =>
        rw [if_pos hsub]
        exact ih (by omega) h (lookupFrom_some (by omega) h).2
      · next hsub =>
        rw [if_neg hsub]
        exact h
    · cases h

theorem lookupMapping_samePage (h : pt.lookupMapping v = some (p, s)) (hp : SamePage s v v') :
    pt.lookupMapping v' = some (p, s) := by
  rw [lookupMapping, rootPtr_eq] at h ⊢
  exact lookupFrom_samePage le_rfl h hp

theorem lookupMapping_le (h : pt.lookupMapping v = some (p, s)) : s ≤ 7 := by
  rw [lookupMapping, rootPtr_eq] at h
  exact (lookupFrom_some le_rfl h).2

/-- Two addresses of one smallest page have the same lookup. -/
theorem lookupMapping_congr (hp : SamePage 0 v v') : pt.lookupMapping v' = pt.lookupMapping v := by
  have hback : SamePage 0 v' v := Eq.symm hp
  cases h : pt.lookupMapping v with
  | some r =>
    have hs := lookupMapping_le h
    exact lookupMapping_samePage h (hp.mono (Nat.zero_le _) hs)
  | none =>
    cases h' : pt.lookupMapping v' with
    | none => rfl
    | some r =>
      have hs := lookupMapping_le h'
      have heq := lookupMapping_samePage h' (hback.mono (Nat.zero_le _) hs)
      rw [h] at heq
      cases heq

/-! ## Physical addresses -/

/-- The frame of a page is aligned to its size. -/
theorem toNat_address (hs : s ≤ 7) (e : Pgent) :
    (e.address s).toNat = e.physAddr.toNat / 2 ^ pageShift s * 2 ^ pageShift s := by
  have hshift := pageShift_bounds hs
  rw [Pgent.address, pageMask_eq hs, Mask.toNat_and_not_low (by omega)]

theorem address_add_le (hs : s ≤ 7) (e : Pgent) :
    (e.address s).toNat + 2 ^ pageShift s ≤ 2 ^ 37 := by
  have hshift := pageShift_bounds hs
  have hpow : 2 ^ pageShift s ≤ 2 ^ 32 := Nat.pow_le_pow_right (by decide) hshift.2
  have hframe : e.physAddr.toNat < 2 ^ 36 := by
    have hlt := (e.low.extractLsb' 6 24).isLt
    rw [Pgent.physAddr, BitVec.toNat_shiftLeft, BitVec.toNat_setWidth, Nat.shiftLeft_eq]
    omega
  have hle := Nat.div_mul_le_self e.physAddr.toNat (2 ^ pageShift s)
  rw [toNat_address hs]
  omega

theorem toNat_phys (hs : s ≤ 7) : (pt.phys p s v).toNat =
    ((pt.get p).address s).toNat + v.toNat % 2 ^ pageShift s := by
  have hshift := pageShift_bounds hs
  have hle := address_add_le hs (pt.get p)
  have hmod := Nat.mod_lt v.toNat (Nat.two_pow_pos (pageShift s))
  rw [phys, BitVec.toNat_add, pageMask_eq hs, Mask.toNat_and_low (by omega)]
  exact Nat.mod_eq_of_lt (by omega)

theorem toNat_add_ofNat {k : Nat} (h : v.toNat + k < 2 ^ 64) :
    (v + BitVec.ofNat 64 k).toNat = v.toNat + k := by
  rw [BitVec.toNat_add, BitVec.toNat_ofNat]
  omega

/-- A place up to the end of the page is in the page. -/
theorem samePage_add {k : Nat} (hs : s ≤ 7) (hv : v.toNat < 2 ^ 63)
    (hk : v.toNat % 2 ^ pageShift s + k < 2 ^ pageShift s) :
    SamePage s v (v + BitVec.ofNat 64 k) ∧
      pt.phys p s (v + BitVec.ofNat 64 k) = pt.phys p s v + BitVec.ofNat 64 k := by
  have hshift := pageShift_bounds hs
  have hpow : 2 ^ pageShift s ≤ 2 ^ 32 := Nat.pow_le_pow_right (by decide) hshift.2
  have hadd := toNat_add_ofNat (v := v) (k := k) (by omega)
  have hle := address_add_le hs (pt.get p)
  constructor
  · obtain ⟨m, hm⟩ : 2 ^ pageShift s ∣ 2 ^ 41 := Nat.pow_dvd_pow 2 (hshift.2.trans (by decide))
    have hdiv : (v.toNat + k) / 2 ^ pageShift s = v.toNat / 2 ^ pageShift s := by
      have hsplit : v.toNat + k =
          v.toNat % 2 ^ pageShift s + k + 2 ^ pageShift s * (v.toNat / 2 ^ pageShift s) := by
        rw [Nat.add_right_comm, Nat.mod_add_div]
      rw [hsplit, Nat.add_mul_div_left _ _ (Nat.two_pow_pos _), Nat.div_eq_of_lt hk, Nat.zero_add]
    rw [SamePage, hadd, hm, Nat.mod_mul_right_div_self, Nat.mod_mul_right_div_self, hdiv]
  · apply BitVec.eq_of_toNat_eq
    rw [toNat_add_ofNat, toNat_phys hs, toNat_phys hs, hadd]
    · rw [Nat.add_assoc, Nat.add_mod, Nat.mod_eq_of_lt (a := k) (by omega), Nat.mod_eq_of_lt hk]
    · rw [toNat_phys hs]
      omega

/-! ## Bytes -/

/-- The byte at a virtual address, where it is mapped. -/
def byteAt (pt : PageTable) (mem : Memory) (v : Word) : Option (BitVec 8) :=
  (pt.lookupMapping v).map fun r => mem (pt.phys r.1 r.2 v)

/-- The bytes from a virtual address on, where all of them are mapped. -/
def bytesAt (pt : PageTable) (mem : Memory) : Nat → Word → Option (List (BitVec 8))
  | 0, _ => some []
  | n + 1, v => do
    let b ← pt.byteAt mem v
    let bs ← pt.bytesAt mem n (v + 1)
    pure (b :: bs)

theorem bytesAt_succ : pt.bytesAt mem (n + 1) v =
    (pt.byteAt mem v).bind fun b => (pt.bytesAt mem n (v + 1)).map (b :: ·) := by
  rw [bytesAt]
  cases pt.byteAt mem v with
  | none => rfl
  | some b => cases pt.bytesAt mem n (v + 1) <;> rfl

theorem add_ofNat_succ (v : Word) (n : Nat) :
    v + 1 + BitVec.ofNat 64 n = v + BitVec.ofNat 64 (n + 1) := by
  rw [BitVec.add_assoc, Nat.add_comm n, BitVec.ofNat_add]
  rfl

theorem bytesAt_add (pt : PageTable) (mem : Memory) (n m : Nat) (v : Word) : pt.bytesAt mem (n + m) v =
    (pt.bytesAt mem n v).bind fun xs =>
      (pt.bytesAt mem m (v + BitVec.ofNat 64 n)).map (xs ++ ·) := by
  induction n generalizing v with
  | zero => simp [bytesAt]
  | succ n ih =>
    rw [Nat.add_right_comm, bytesAt_succ, bytesAt_succ, ih, add_ofNat_succ]
    cases pt.byteAt mem v with
    | none => rfl
    | some b =>
      cases pt.bytesAt mem n (v + 1) with
      | none => rfl
      | some bs => cases pt.bytesAt mem m (v + BitVec.ofNat 64 (n + 1)) <;> rfl

theorem length_bytesAt {bs : List (BitVec 8)} (h : pt.bytesAt mem n v = some bs) :
    bs.length = n := by
  induction n generalizing v bs with
  | zero =>
    cases h
    rfl
  | succ n ih =>
    rw [bytesAt_succ, Option.bind_eq_some_iff] at h
    obtain ⟨b, -, hb⟩ := h
    obtain ⟨bs', hbs, rfl⟩ := Option.map_eq_some_iff.mp hb
    rw [List.length_cons, ih hbs]

/-- The bytes of an address that is not mapped. -/
theorem bytesAt_none (h : pt.lookupMapping v = none) (hn : 0 < n) : pt.bytesAt mem n v = none := by
  obtain ⟨n, rfl⟩ := Nat.exists_eq_succ_of_ne_zero hn.ne'
  rw [bytesAt_succ, byteAt, h]
  rfl

/-- The bytes up to the end of a page are those of its frame. -/
theorem bytesAt_page (h : pt.lookupMapping v = some (p, s)) (hv : v.toNat + n < 2 ^ 63)
    (hn : v.toNat % 2 ^ pageShift s + n ≤ 2 ^ pageShift s) :
    pt.bytesAt mem n v = some (mem.bytes n (pt.phys p s v)) := by
  have hs := lookupMapping_le h
  induction n generalizing v with
  | zero => rfl
  | succ n ih =>
    have hbyte : pt.byteAt mem v = some (mem (pt.phys p s v)) := by
      rw [byteAt, h]
      rfl
    rw [bytesAt_succ, hbyte, Memory.bytes]
    rcases Nat.eq_zero_or_pos n with rfl | hpos
    · rfl
    · obtain ⟨hpage, hphys⟩ :=
        @samePage_add pt v p s 1 hs (by omega) (by omega)
      have hone : v + BitVec.ofNat 64 1 = v + 1 := rfl
      have hnext : (v + 1).toNat = v.toNat + 1 := toNat_add_ofNat (k := 1) (by omega)
      rw [hone] at hpage hphys
      rw [ih (lookupMapping_samePage h hpage), hphys]
      · rfl
      · omega
      · rw [hnext, Nat.add_mod, Nat.mod_eq_of_lt (a := 1) (by omega), Nat.mod_eq_of_lt (by omega)]
        omega

theorem bytes_drop (mem : Memory) (k n : Nat) (x : Word) :
    (mem.bytes (k + n) x).drop k = mem.bytes n (x + BitVec.ofNat 64 k) := by
  induction k generalizing x with
  | zero => simp
  | succ k ih =>
    rw [Nat.add_right_comm, Memory.bytes, List.drop_succ_cons, ih, add_ofNat_succ]

theorem bytes_take (mem : Memory) (k n : Nat) (x : Word) :
    (mem.bytes (k + n) x).take k = mem.bytes k x := by
  induction k generalizing x with
  | zero => rfl
  | succ k ih => rw [Nat.add_right_comm, Memory.bytes, List.take_succ_cons, ih, Memory.bytes]

theorem length_bytes (mem : Memory) (n : Nat) (x : Word) : (mem.bytes n x).length = n := by
  induction n generalizing x with
  | zero => rfl
  | succ n ih => rw [Memory.bytes, List.length_cons, ih]

/-! ## Words -/

theorem wordMask_eq : (8 - 1 : Word) = Mask.low 64 3 := by decide

theorem align_add {x : Word} {k : Nat} (hx : 8 ∣ x.toNat) (hk : k < 8) (hlt : x.toNat + k < 2 ^ 64) :
    (x + BitVec.ofNat 64 k) &&& ~~~(8 - 1) = x := by
  apply BitVec.eq_of_toNat_eq
  rw [wordMask_eq, Mask.toNat_and_not_low (by decide), toNat_add_ofNat hlt]
  omega

theorem index_add {x : Word} {k : Nat} (hx : 8 ∣ x.toNat) (hk : k < 8) (hlt : x.toNat + k < 2 ^ 64) :
    ((x + BitVec.ofNat 64 k) &&& (8 - 1)).toNat = k := by
  rw [wordMask_eq, Mask.toNat_and_low (by decide), toNat_add_ofNat hlt]
  omega

theorem eight_dvd_page (hs : s ≤ 7) : 8 ∣ 2 ^ pageShift s :=
  Nat.pow_dvd_pow 2 (show 3 ≤ pageShift s from (by decide : 3 ≤ 12).trans (pageShift_bounds hs).1)

/-- The word of an aligned address is in one page. -/
theorem aligned_add {k : Nat} (hs : s ≤ 7) (hu : 8 ∣ u.toNat) (hk : k < 8) :
    u.toNat % 2 ^ pageShift s + k < 2 ^ pageShift s := by
  have hlt := Nat.mod_lt u.toNat (Nat.two_pow_pos (pageShift s))
  have hdvd := eight_dvd_page hs
  have hmod : 8 ∣ u.toNat % 2 ^ pageShift s := (Nat.dvd_mod_iff hdvd).mpr hu
  omega

theorem eight_dvd_phys (hs : s ≤ 7) (hu : 8 ∣ u.toNat) : 8 ∣ (pt.phys p s u).toNat := by
  have hdvd := eight_dvd_page hs
  rw [toNat_phys hs, toNat_address hs]
  exact Nat.dvd_add (Nat.dvd_mul_left_of_dvd hdvd _) ((Nat.dvd_mod_iff hdvd).mpr hu)

/-- The two accesses are in one page unless the first word is the last one of the page. -/
theorem crosses_iff (hs : s ≤ 7) (hu : 8 ∣ u.toNat) :
    pt.phys p s u &&& ~~~pageMask s ≠ (pt.phys p s u + 8) &&& ~~~pageMask s ↔
      u.toNat % 2 ^ pageShift s + 8 = 2 ^ pageShift s := by
  have hshift := pageShift_bounds hs
  have hpos := Nat.two_pow_pos (pageShift s)
  have hoff := aligned_add hs hu (show 7 < 8 by decide)
  have hle := address_add_le hs (pt.get p)
  have hphys : (pt.phys p s u).toNat =
      2 ^ pageShift s * ((pt.get p).physAddr.toNat / 2 ^ pageShift s) +
        u.toNat % 2 ^ pageShift s := by
    rw [toNat_phys hs, toNat_address hs, Nat.mul_comm]
  have hnext : (pt.phys p s u + 8).toNat =
      2 ^ pageShift s * ((pt.get p).physAddr.toNat / 2 ^ pageShift s) +
        (u.toNat % 2 ^ pageShift s + 8) := by
    have hadd := toNat_add_ofNat (v := pt.phys p s u) (k := 8) (by rw [toNat_phys hs]; omega)
    rw [← Nat.add_assoc, ← hphys]
    exact hadd
  rw [pageMask_eq hs, ne_eq, ← BitVec.toNat_inj, Mask.toNat_and_not_low (by omega),
    Mask.toNat_and_not_low (by omega), hphys, hnext, Nat.mul_add_div hpos, Nat.mul_add_div hpos,
    Nat.div_eq_of_lt (show u.toNat % 2 ^ pageShift s < 2 ^ pageShift s by omega),
    Nat.mul_left_inj hpos.ne']
  rcases Nat.lt_or_ge (u.toNat % 2 ^ pageShift s + 8) (2 ^ pageShift s) with hlt | hge
  · rw [Nat.div_eq_of_lt hlt]
    omega
  · have heq : u.toNat % 2 ^ pageShift s + 8 = 2 ^ pageShift s := by
      have hdvd := eight_dvd_page hs
      have hmod : 8 ∣ u.toNat % 2 ^ pageShift s := (Nat.dvd_mod_iff hdvd).mpr hu
      omega
    rw [heq, Nat.div_self hpos]
    omega

/-- The word of eight aligned bytes, where it is mapped. -/
def wordAt (pt : PageTable) (mem : Memory) (u : Word) : Option Word :=
  (pt.lookupMapping u).map fun r => readmemPhys mem (pt.phys r.1 r.2 u)

theorem assemble_eq {k : Nat} {x y : Word} (hu : 8 ∣ u.toNat) (hk : k < 8)
    (hlt : u.toNat + k < 2 ^ 64) : assemble mem (u + BitVec.ofNat 64 k) x y =
      readmemPhys mem x <<< (8 * k) ||| readmemPhys mem y >>> (8 * (8 - k)) := by
  rw [assemble, index_add hu hk hlt, Nat.mul_comm k, Nat.mul_comm (8 - k)]

/-- The read in terms of the two aligned words that the bytes are in. -/
theorem readmemWord_eq {k : Nat} (hu : 8 ∣ u.toNat) (hlt : u.toNat < 2 ^ 40) (hk : k < 8) :
    pt.readmemWord mem (u + BitVec.ofNat 64 k) =
      if k = 0 then pt.wordAt mem u
      else
        (pt.wordAt mem u).bind fun (hi : Word) => (pt.wordAt mem (u + 8)).map fun (lo : Word) =>
          hi <<< (8 * k) ||| lo >>> (8 * (8 - k)) := by
  have hpage := (@samePage_add pt u ⟨.root, 0⟩ 0 k (by decide) (by omega)
    (aligned_add (by decide) hu hk)).1
  rw [readmemWord, lookupMapping_congr hpage, wordAt, wordAt]
  cases hl : pt.lookupMapping u with
  | none => simp
  | some r =>
    obtain ⟨p, s⟩ := r
    have hs := lookupMapping_le hl
    have hphys := (@samePage_add pt u p s k hs (by omega) (aligned_add hs hu hk)).2
    have hdvd : 8 ∣ (pt.phys p s u).toNat := eight_dvd_phys hs hu
    have hend : (pt.phys p s u).toNat + 8 < 2 ^ 64 := by
      have hle := address_add_le hs (pt.get p)
      have hmod := Nat.mod_lt u.toNat (Nat.two_pow_pos (pageShift s))
      rw [toNat_phys hs]
      omega
    have hself : pt.phys p s u = pt.phys p s u + BitVec.ofNat 64 k ↔ k = 0 := by
      rw [← BitVec.toNat_inj, toNat_add_ofNat (by omega)]
      omega
    simp only [hphys, align_add hdvd hk (by omega), hself, crosses_iff hs hu]
    split
    · next hzero =>
      rw [← hself.mpr hzero]
      rfl
    · have hu8 : (u + 8).toNat = u.toNat + 8 := toNat_add_ofNat (k := 8) (by omega)
      have hdvd8 : 8 ∣ (u + 8).toNat := by omega
      split
      · -- the second word is on another page
        have hcomm : u + BitVec.ofNat 64 k + 8 = u + 8 + BitVec.ofNat 64 k := by
          rw [BitVec.add_assoc, BitVec.add_comm (BitVec.ofNat 64 k), ← BitVec.add_assoc]
        have hpage8 := (@samePage_add pt (u + 8) ⟨.root, 0⟩ 0 k (by decide) (by omega)
          (aligned_add (by decide) hdvd8 hk)).1
        rw [hcomm, lookupMapping_congr hpage8]
        cases hl8 : pt.lookupMapping (u + 8) with
        | none => rfl
        | some r =>
          obtain ⟨p', s'⟩ := r
          have hs' := lookupMapping_le hl8
          have hphys8 :=
            (@samePage_add pt (u + 8) p' s' k hs' (by omega) (aligned_add hs' hdvd8 hk)).2
          have halign : (pt.phys p' s' (u + 8) + BitVec.ofNat 64 k) &&& ~~~(8 - 1) =
              pt.phys p' s' (u + 8) := by
            apply align_add (eight_dvd_phys hs' hdvd8) hk
            have hle := address_add_le hs' (pt.get p')
            have hmod := Nat.mod_lt (u + 8).toNat (Nat.two_pow_pos (pageShift s'))
            rw [toNat_phys hs']
            omega
          simp only [hphys8, halign, assemble_eq hdvd8 hk (show (u + 8).toNat + k < 2 ^ 64 by omega)]
          rfl
      · next hin =>
        have hoff : u.toNat % 2 ^ pageShift s + 8 < 2 ^ pageShift s := by
          have hlast := aligned_add hs hu (show 7 < 8 by decide)
          omega
        obtain ⟨hpage8, hphys8⟩ := @samePage_add pt u p s 8 hs (by omega) hoff
        have hl8 : pt.lookupMapping (u + 8) = some (p, s) := lookupMapping_samePage hl hpage8
        have hnext : pt.phys p s u + 8 = pt.phys p s (u + 8) := hphys8.symm
        rw [hl8, hnext, assemble_eq hu hk (by omega)]
        rfl

/-- The bytes of a word from place `k` on. -/
theorem bytesAt_drop (mem : Memory) {k : Nat} (hu : 8 ∣ u.toNat) (hlt : u.toNat < 2 ^ 41) (hk : k < 8)
    (hl : pt.lookupMapping u = some (p, s)) :
    pt.bytesAt mem (8 - k) (u + BitVec.ofNat 64 k) =
      some ((mem.bytes 8 (pt.phys p s u)).drop k) := by
  have hs := lookupMapping_le hl
  have hoff := aligned_add hs hu hk
  have hlast := aligned_add hs hu (show 7 < 8 by decide)
  obtain ⟨hpage, hphys⟩ := @samePage_add pt u p s k hs (by omega) hoff
  have hadd := toNat_add_ofNat (v := u) (k := k) (by omega)
  have hdrop := bytes_drop mem k (8 - k) (pt.phys p s u)
  rw [Nat.add_sub_cancel' hk.le] at hdrop
  rw [hdrop, ← hphys]
  refine bytesAt_page (lookupMapping_samePage hl hpage) (by omega) ?_
  rw [hadd, Nat.add_mod, Nat.mod_eq_of_lt (a := k) (by omega), Nat.mod_eq_of_lt hoff]
  omega

/-- The first bytes of a word. -/
theorem bytesAt_take {k : Nat} (hu : 8 ∣ u.toNat) (hlt : u.toNat < 2 ^ 41) (hk : k ≤ 8)
    (hl : pt.lookupMapping u = some (p, s)) :
    pt.bytesAt mem k u = some ((mem.bytes 8 (pt.phys p s u)).take k) := by
  have hs := lookupMapping_le hl
  have hlast := aligned_add hs hu (show 7 < 8 by decide)
  have htake := bytes_take mem k (8 - k) (pt.phys p s u)
  rw [Nat.add_sub_cancel' hk] at htake
  rw [htake]
  exact bytesAt_page hl (by omega) (by omega)

theorem readmemWord_add {k : Nat} (hu : 8 ∣ u.toNat) (hlt : u.toNat < 2 ^ 40) (hk : k < 8) :
    pt.readmemWord mem (u + BitVec.ofNat 64 k) =
      (pt.bytesAt mem 8 (u + BitVec.ofNat 64 k)).map (Bytes.word 64) := by
  have hpage := (@samePage_add pt u ⟨.root, 0⟩ 0 k (by decide) (by omega)
    (aligned_add (by decide) hu hk)).1
  have hlookup : pt.lookupMapping (u + BitVec.ofNat 64 k) = pt.lookupMapping u :=
    lookupMapping_congr hpage
  rw [readmemWord_eq hu hlt hk, wordAt, wordAt]
  cases hl : pt.lookupMapping u with
  | none =>
    rw [bytesAt_none (hlookup.trans hl) (by decide)]
    split <;> rfl
  | some r =>
    have hdrop := bytesAt_drop mem hu (by omega) hk hl
    split
    · next hzero =>
      rw [hzero] at hdrop ⊢
      rw [hdrop]
      rfl
    · have hu8 : (u + 8).toNat = u.toNat + 8 := toNat_add_ofNat (k := 8) (by omega)
      have hsecond : u + BitVec.ofNat 64 k + BitVec.ofNat 64 (8 - k) = u + 8 := by
        rw [BitVec.add_assoc, ← BitVec.ofNat_add, Nat.add_sub_cancel' hk.le]
        rfl
      have hsplit := bytesAt_add pt mem (8 - k) k (u + BitVec.ofNat 64 k)
      rw [Nat.sub_add_cancel hk.le, hsecond, hdrop] at hsplit
      rw [hsplit]
      cases hl8 : pt.lookupMapping (u + 8) with
      | none =>
        rw [bytesAt_none hl8 (by omega)]
        rfl
      | some r' =>
        rw [bytesAt_take (by omega) (by omega) hk.le hl8]
        exact congrArg some (Bytes.word_splice (length_bytes mem 8 _) (length_bytes mem 8 _) rfl hk.le)

/-- A word of any alignment is read as the number of its bytes. -/
theorem readmemWord_spec (hv : v.toNat < 2 ^ 40) :
    pt.readmemWord mem v = (pt.bytesAt mem 8 v).map (Bytes.word 64) := by
  have hbase : (v &&& ~~~(8 - 1)).toNat = v.toNat / 8 * 8 := by
    rw [wordMask_eq]
    exact Mask.toNat_and_not_low (by decide)
  have hsum : v = (v &&& ~~~(8 - 1)) + BitVec.ofNat 64 (v.toNat % 8) := by
    apply BitVec.eq_of_toNat_eq
    rw [toNat_add_ofNat (by omega), hbase]
    omega
  rw [hsum]
  exact readmemWord_add (by omega) (by omega) (Nat.mod_lt _ (by decide))

/-! ## The wrapper -/

/-- What a read of a type should return: the number of its bytes, if all of them are mapped. -/
def reads (pt : PageTable) (mem : Memory) (v : Word) (T : ReadType) : Option Word :=
  (pt.bytesAt mem T.size v).map (Bytes.word 64)

/-- The read of a type comes out right: with all bytes of the type, the other bytes of the word are
mapped, and the bits that are too far left by `8 - sizeof (T)` are those of the bytes of the type. -/
def ReadSafe (pt : PageTable) (mem : Memory) (v : Word) (T : ReadType) : Prop :=
  ∀ xs, pt.bytesAt mem T.size v = some xs →
    ∃ ys, pt.bytesAt mem (8 - T.size) (v + BitVec.ofNat 64 T.size) = some ys ∧
      Bytes.bigEndian (xs ++ ys) / 2 ^ (8 - T.size) % 256 ^ T.size = Bytes.bigEndian xs

theorem size_le (T : ReadType) : T.size ≤ 8 := by cases T <;> decide

theorem toNat_narrow (T : ReadType) (w : Word) : (T.narrow w).toNat = w.toNat % 256 ^ T.size := by
  cases T with
  | u8 => exact Mask.toNat_and_low (n := 8) (by decide)
  | u16 => exact Mask.toNat_and_low (n := 16) (by decide)
  | u32 => exact Mask.toNat_and_low (n := 32) (by decide)
  | u64 => exact (Nat.mod_eq_of_lt w.isLt).symm

/-- The wrapper returns bytes of the word that do not start at a byte. -/
theorem readmem_eq (hv : Space.isUserArea v) : pt.readmem kernel mem v T =
    (pt.bytesAt mem 8 v).map fun bs =>
      BitVec.ofNat 64 (Bytes.bigEndian bs / 2 ^ (8 - T.size) % 256 ^ T.size) := by
  rw [readmem, hv, readmemWord_spec (Space.isUserArea_iff.mp hv)]
  cases hbs : pt.bytesAt mem 8 v with
  | none => rfl
  | some bs =>
    have hlen := length_bytesAt hbs
    have hword : (Bytes.word 64 bs).toNat = Bytes.bigEndian bs := Bytes.toNat_word (by omega)
    have hvalue : (T.narrow (Bytes.word 64 bs >>> (8 - T.size))).toNat =
        Bytes.bigEndian bs / 2 ^ (8 - T.size) % 256 ^ T.size := by
      rw [toNat_narrow, BitVec.toNat_ushiftRight, hword, Nat.shiftRight_eq_div_pow]
    rw [Option.map_some, Option.map_some, ← hvalue, BitVec.ofNat_toNat, BitVec.setWidth_eq]
    rfl

/-- Reads of words are right. -/
theorem readSafe_u64 : pt.ReadSafe mem v .u64 := by
  intro xs hxs
  have hlt := Bytes.bigEndian_lt xs
  rw [length_bytesAt hxs] at hlt
  refine ⟨[], rfl, ?_⟩
  rw [List.append_nil]
  exact (Nat.mod_eq_of_lt ((Nat.div_le_self _ _).trans_lt hlt)).trans (Nat.div_one _)

/-- Two pages of 4 GB side by side, in frames that are not. -/
def samplePages : PageTable :=
  (zero.setEntry (rootPtr 0) PgSize.size4g 0x300000000 true true false Pgent.l4default).setEntry
    (rootPtr 0x100000000) PgSize.size4g 0x100000000 true true false Pgent.l4default

/-- The first page has the lower bytes of the addresses, the second one other bytes. -/
def sampleMemory : Memory := fun addr => addr.setWidth 8 ^^^ if addr < 0x300000000 then 0x50 else 0

end PageTable

end L4Thread
