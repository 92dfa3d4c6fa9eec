import L4Thread.Theory.Wp
import Mathlib.Order.WithBot

/-!
# Times

What the time values of the interface mean, and how far the arithmetic on them is exact. A period
is converted in 32-bit signed arithmetic, so just the periods below `2 ^ 31` microseconds come out
right.
-/

namespace L4Thread

open TrapM Kernel

variable {s : KState} {p : TcbPtr} {t l r : Time}

namespace Time

/-- The microseconds that a period stands for. -/
def duration (t : Time) : Nat := t.mantissa * 2 ^ t.exponent

/-- The duration of a relative time; `never` is longer than all periods. -/
def relative (t : Time) : WithTop Nat := if t.isNever then ⊤ else .some t.duration

/-- The period is representable in the type of the conversion. -/
def Short (t : Time) : Prop := t.duration < 2 ^ 31

theorem mantissa_lt (t : Time) : t.mantissa < 2 ^ 10 := Nat.mod_lt _ (by decide)

theorem exponent_lt (t : Time) : t.exponent < 32 := Nat.mod_lt _ (by decide)

theorem duration_lt (t : Time) : t.duration < 2 ^ 41 := by
  have hexp : 2 ^ t.exponent ≤ 2 ^ 31 := by
    apply Nat.pow_le_pow_right (by decide)
    have hlt := t.exponent_lt
    omega
  have hmant := t.mantissa_lt
  calc t.duration ≤ t.mantissa * 2 ^ 31 := Nat.mul_le_mul_left _ hexp
    _ < 2 ^ 41 := by omega

/-- The product in `int` arithmetic. -/
theorem toNat_product (t : Time) :
    (((1 : BitVec 32) <<< t.exponent) * BitVec.ofNat 32 t.mantissa).toNat =
      t.duration % 2 ^ 32 := by
  have hexp : 2 ^ t.exponent < 2 ^ 32 := Nat.pow_lt_pow_right (by decide) t.exponent_lt
  have hmant : t.mantissa < 2 ^ 32 := t.mantissa_lt.trans (by decide)
  have hone : (1 : BitVec 32).toNat = 1 := rfl
  rw [BitVec.toNat_mul, BitVec.toNat_shiftLeft, BitVec.toNat_ofNat, hone, Nat.shiftLeft_eq,
    Nat.one_mul, Nat.mod_eq_of_lt hexp, Nat.mod_eq_of_lt hmant, duration, Nat.mul_comm]

/-- The conversion: the remainder modulo `2 ^ 32`, with its top bit as a sign. -/
theorem toNat_getMicroseconds (t : Time) : t.getMicroseconds.toNat =
    t.duration % 2 ^ 32 + if 2 ^ 31 ≤ t.duration % 2 ^ 32 then 2 ^ 64 - 2 ^ 32 else 0 := by
  rw [getMicroseconds, BitVec.toNat_signExtend, BitVec.toNat_setWidth, BitVec.msb_eq_decide,
    toNat_product]
  have hlt : t.duration % 2 ^ 32 < 2 ^ 64 := (Nat.mod_lt _ (by decide)).trans (by decide)
  rw [Nat.mod_eq_of_lt hlt]
  simp

theorem getMicroseconds_eq_iff : t.getMicroseconds.toNat = t.duration ↔ t.Short := by
  have hlt := t.duration_lt
  rw [toNat_getMicroseconds, Short]
  split <;> omega

end Time

/-! ## The uses of the conversion -/

/-- `set_timeout` stores the current time plus the period; it traps at most at a broken queue. -/
def KState.StoresPeriod (s : KState) (p : TcbPtr) (t : Time) : Prop :=
  wp (· = .nullLink) (setTimeout p t)
    (fun _ s' => (s'.tcb p).absoluteTimeout.toNat = s.currentTime.toNat + t.duration) s

/-- `operator<` decides the order of two relative times. -/
def KState.OrdersTimes (s : KState) (l r : Time) : Prop :=
  wp (fun _ => False) (timeLt l r) (fun b s' => s' = s ∧ (b ↔ l.relative < r.relative)) s

/-- The arithmetic on two times is exact. -/
structure KState.TimesExact (s : KState) (p : TcbPtr) (l r : Time) : Prop where
  left : l.getMicroseconds.toNat = l.duration
  right : r.getMicroseconds.toNat = r.duration
  store : s.StoresPeriod p l ∧ s.StoresPeriod p r
  order : s.OrdersTimes l r

/-- The sum of the current time and a short period does not wrap. -/
theorem toNat_add_getMicroseconds (hnow : s.currentTime.toNat < 2 ^ 63) (ht : t.Short) :
    (s.currentTime + t.getMicroseconds).toNat = s.currentTime.toNat + t.duration := by
  have hmicros : t.getMicroseconds.toNat = t.duration := Time.getMicroseconds_eq_iff.mpr ht
  have hlt := t.duration_lt
  rw [BitVec.toNat_add, hmicros]
  omega

/-- The timeout that `set_timeout` stores stays in the TCB. -/
theorem wp_setTimeoutAt {now : Word} : wp (· = .nullLink) (setTimeoutAt p now)
    (fun _ s' => (s'.tcb p).absoluteTimeout = now) s := by
  rw [setTimeoutAt, wp_bind, wp_modTcb, wp_bind, wp_gets, wp_bind, id_eq]
  cases Ring.enqueueTail s.wakeupList s.waitList p with
  | none => exact rfl
  | some x => simp [ofLinks, setWakeupList, setWakeup]

theorem storesPeriod (hperiod : t.isPeriod) (hnow : s.currentTime.toNat < 2 ^ 63) (ht : t.Short) :
    s.StoresPeriod p t := by
  have hpoint : ¬t.isPoint := by simpa [Time.isPeriod] using hperiod
  rw [KState.StoresPeriod, setTimeout, if_neg hpoint, wp_bind, wp_gets]
  refine wp_mono wp_setTimeoutAt fun _ s' hs' => ?_
  rw [hs', toNat_add_getMicroseconds hnow ht]

/-- The absolute time of a relative time, up to which the current time does not matter. -/
theorem wp_absoluteTime (hperiod : t.isPeriod) : wp (fun _ => False) (absoluteTime t)
    (fun w s' => s' = s ∧
      w = if t.isNever then BitVec.allOnes 64 else s.currentTime + t.getMicroseconds) s := by
  have hpoint : ¬t.isPoint := by simpa [Time.isPeriod] using hperiod
  rw [absoluteTime, if_neg hpoint]
  cases t.isNever <;> simp

theorem ordersTimes (hl : l.isPeriod) (hr : r.isPeriod) (hnow : s.currentTime.toNat < 2 ^ 63)
    (hls : l.Short) (hrs : r.Short) : s.OrdersTimes l r := by
  rw [KState.OrdersTimes, timeLt, wp_bind]
  refine wp_mono (wp_absoluteTime hl) ?_
  rintro _ _ ⟨rfl, rfl⟩
  rw [wp_bind]
  refine wp_mono (wp_absoluteTime hr) ?_
  rintro _ _ ⟨rfl, rfl⟩
  refine ⟨rfl, ?_⟩
  have hladd := toNat_add_getMicroseconds hnow hls
  have hradd := toNat_add_getMicroseconds hnow hrs
  have hones : (BitVec.allOnes 64).toNat = 2 ^ 64 - 1 := rfl
  rw [Time.Short] at hls hrs
  rw [decide_eq_true_iff, BitVec.lt_def, Time.relative, Time.relative]
  cases l.isNever with
  | true =>
    have hle : r.duration ≤ 2 ^ 31 := hrs.le
    cases r.isNever with
    | true => simp
    | false =>
      simp only [if_true, Bool.false_eq_true, if_false, hradd, hones, not_top_lt, iff_false]
      omega
  | false =>
    cases r.isNever with
    | true =>
      simp only [if_true, Bool.false_eq_true, if_false, hladd, hones, WithTop.coe_lt_top, iff_true]
      omega
    | false =>
      simp only [Bool.false_eq_true, if_false, hladd, hradd, WithTop.coe_lt_coe]
      omega

/-- The arithmetic on two relative times is exact just for periods below `2 ^ 31` microseconds. -/
theorem timesExact_iff (hl : l.isPeriod) (hr : r.isPeriod) (hnow : s.currentTime.toNat < 2 ^ 63) :
    s.TimesExact p l r ↔ l.duration < 2 ^ 31 ∧ r.duration < 2 ^ 31 := by
  constructor
  · intro hexact
    exact ⟨Time.getMicroseconds_eq_iff.mp hexact.left, Time.getMicroseconds_eq_iff.mp hexact.right⟩
  · rintro ⟨hls, hrs⟩
    exact
      { left := Time.getMicroseconds_eq_iff.mpr hls
        right := Time.getMicroseconds_eq_iff.mpr hrs
        store := ⟨storesPeriod hl hnow hls, storesPeriod hr hnow hrs⟩
        order := ordersTimes hl hr hnow hls hrs }

/-- Ten milliseconds and an hour in the sample system. -/
theorem exists_timesExact : ∃ l r : Time, l.relative < r.relative ∧
    ∀ p, KState.sample.TimesExact p l r := by
  refine ⟨.period 625 4, .period 879 21, by decide, fun p => ?_⟩
  exact (timesExact_iff (by decide) (by decide) (by decide +kernel)).mpr (by decide)

/-- 36 minutes become a negative number, and lie before a microsecond from now. -/
theorem exists_not_timesExact : ∃ (s : KState) (p : TcbPtr) (l r : Time),
    l.isPeriod ∧ r.isPeriod ∧ s.currentTime.toNat < 2 ^ 63 ∧
      l.getMicroseconds.toNat ≠ l.duration ∧ ¬s.StoresPeriod p l ∧ ¬s.OrdersTimes l r := by
  refine ⟨{ KState.zero .sample with currentTime := 2 ^ 40 }, .idle, .period 512 22, .period 1 0,
    by decide, by decide, by decide, by decide, fun hstore => ?_, fun horder => ?_⟩
  · have hstored := wp_ok hstore rfl
    revert hstored
    decide +kernel
  · have hlt := (wp_ok horder rfl).2.mp (by decide +kernel)
    revert hlt
    decide

end L4Thread
