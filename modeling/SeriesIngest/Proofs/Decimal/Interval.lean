import SeriesIngest.Decimal.Shortest
import Mathlib.Algebra.Order.Field.Power
import Mathlib.Tactic.Positivity
import Mathlib.Tactic.Ring

/-! The shortest decimal of a float lies in its rounding interval: the search goes down to a grid
with a hit. The intervals of all finite magnitudes follow one another along the line, and where two
of them touch, one of the two is open. -/
namespace SeriesIngest

/-! Without the sign, the bits of a float are its exponent and its fraction. -/

theorem Binary64.exponentField_eq (x : Binary64) :
    x.exponentField = x.bits.toNat % 2 ^ 63 / 2 ^ 52 := by
  rw [exponentField]
  omega

theorem Binary64.fraction_eq (x : Binary64) : x.fraction = x.bits.toNat % 2 ^ 63 % 2 ^ 52 := by
  rw [fraction]
  omega

namespace Decimal

theorem pow_toNat (base : Rat) (h : base ≠ 0) (n : Int) :
    base ^ n.toNat = base ^ (-n).toNat * base ^ n := by
  rw [← zpow_natCast, ← zpow_natCast, ← zpow_add₀ h]
  congr 1
  omega

theorem zpow_of_neg (base : Rat) {n : Int} (h : n < 0) : base ^ n = (base ^ (-n).toNat)⁻¹ := by
  rw [← zpow_natCast, ← zpow_neg]
  congr 1
  omega

namespace Interval

def low (i : Interval) : Rat := (i.value - i.below : Nat) * 2 ^ i.exponent

def high (i : Interval) : Rat := (i.value + 2 : Nat) * 2 ^ i.exponent

structure Holds (i : Interval) (v : Rat) : Prop where
  low : i.low ≤ v
  high : v ≤ i.high
  ends : i.closed = false → i.low ≠ v ∧ v ≠ i.high

/-! Grids of powers of ten. -/

def unit (e k : Int) : Nat := Nat.pow 10 (-k).toNat <<< e.toNat

def step (e k : Int) : Nat := Nat.pow 10 k.toNat <<< (-e).toNat

theorem unit_pos (e k : Int) : 0 < unit e k := by
  rw [unit, Nat.shiftLeft_eq]
  exact Nat.mul_pos (Nat.pow_pos (by decide)) (Nat.two_pow_pos _)

theorem step_pos (e k : Int) : 0 < step e k := by
  rw [step, Nat.shiftLeft_eq]
  exact Nat.mul_pos (Nat.pow_pos (by decide)) (Nat.two_pow_pos _)

def Measures (e k : Int) (n : Nat) (v : Rat) : Prop := (n : Rat) * 2 ^ e = unit e k * v

theorem measures_unit (e k : Int) (n : Nat) : Measures e k (n * unit e k) (n * 2 ^ e) := by
  unfold Measures
  push_cast
  ring

theorem measures_step (e k : Int) (factor : Nat) :
    Measures e k (factor * step e k) (factor * 10 ^ k) := by
  have hten := pow_toNat 10 (by norm_num) k
  have htwo := pow_toNat 2 (by norm_num) e
  simp only [Measures, step, unit, Nat.shiftLeft_eq, Nat.pow_eq]
  push_cast
  rw [hten, htwo]
  ring

theorem Measures.le_iff {e k : Int} {a b : Nat} {x y : Rat} (ha : Measures e k a x)
    (hb : Measures e k b y) : a ≤ b ↔ x ≤ y := by
  have hunit : (0 : Rat) < unit e k := Nat.cast_pos.2 (unit_pos e k)
  have htwo : (0 : Rat) < 2 ^ e := by positivity
  rw [← Nat.cast_le (α := Rat), ← mul_le_mul_iff_left₀ htwo, ha, hb, mul_le_mul_iff_right₀ hunit]

theorem contains_iff (i : Interval) (k : Int) (factor : Nat) :
    i.contains (factor * step i.exponent k) (unit i.exponent k) ↔ i.Holds (factor * 10 ^ k) := by
  have hstep := measures_step i.exponent k factor
  have hlow := measures_unit i.exponent k (i.value - i.below)
  have hhigh := measures_unit i.exponent k (i.value + 2)
  have hholds : i.Holds (factor * 10 ^ k) ↔ (i.low ≤ factor * 10 ^ k ∧ factor * 10 ^ k ≤ i.high) ∧
      (i.closed = false → i.low ≠ factor * 10 ^ k ∧ factor * 10 ^ k ≠ i.high) :=
    ⟨fun h => ⟨⟨h.low, h.high⟩, h.ends⟩, fun h => ⟨h.1.1, h.1.2, h.2⟩⟩
  rw [hholds, contains]
  cases i.closed with
  | true =>
    simp only [if_true, Bool.and_eq_true, decide_eq_true_eq, hlow.le_iff hstep, hstep.le_iff hhigh]
    simp [low, high]
  | false =>
    simp only [Bool.false_eq_true, if_false, Bool.and_eq_true, decide_eq_true_eq, ← not_le,
      hstep.le_iff hlow, hhigh.le_iff hstep]
    simp only [not_le, lt_iff_le_and_ne, true_imp_iff]
    exact and_and_and_comm

theorem holds_of_onGrid? {i : Interval} {k : Int} {factor : Nat} (h : i.onGrid? k = some factor) :
    i.Holds (factor * 10 ^ k) := by
  rw [← contains_iff]
  unfold onGrid? at h
  dsimp only at h
  split at h
  · rename_i hdown hup
    cases h
    split
    · exact hdown
    · exact hup
  · rename_i hdown _
    cases h
    exact hdown
  · rename_i _ hup
    cases h
    exact hup
  · cases h

/-- A grid with steps of less than two units has a point just above the value. -/
theorem isSome_onGrid? {i : Interval} {k : Int} (h : step i.exponent k < 2 * unit i.exponent k) :
    (i.onGrid? k).isSome := by
  let down := i.value * unit i.exponent k / step i.exponent k
  have hdown : down * step i.exponent k ≤ i.value * unit i.exponent k := Nat.div_mul_le_self _ _
  have hup : i.value * unit i.exponent k < (down + 1) * step i.exponent k :=
    Nat.lt_mul_of_div_lt (Nat.lt_succ_self _) (step_pos _ _)
  have hlow : (i.value - i.below) * unit i.exponent k ≤ i.value * unit i.exponent k :=
    Nat.mul_le_mul_right _ (Nat.sub_le _ _)
  have hcontains : i.contains ((down + 1) * step i.exponent k) (unit i.exponent k) := by
    rw [Nat.add_mul] at hup
    simp only [contains, Nat.add_mul]
    split <;> simp <;> omega
  unfold onGrid?
  dsimp only
  split
  · rfl
  · rfl
  · rfl
  · rename_i hnone
    exact absurd (hcontains.symm.trans hnone) (by decide)

theorem holds_search (i : Interval) (tries : Nat) (k : Int)
    (h : ∃ j : Nat, j < tries ∧ (i.onGrid? (k - j)).isSome) :
    i.Holds ((i.search tries k).1 * 10 ^ (i.search tries k).2) := by
  induction tries generalizing k with
  | zero => obtain ⟨j, hj, -⟩ := h; omega
  | succ tries ih =>
    unfold search
    split
    · rename_i factor hfound
      exact holds_of_onGrid? hfound
    · rename_i hnone
      obtain ⟨j, hj, hfound⟩ := h
      cases j with
      | zero => simp [hnone] at hfound
      | succ j =>
        refine ih (k - 1) ⟨j, by omega, ?_⟩
        have hshift : k - 1 - (j : Int) = k - ((j + 1 : Nat) : Int) := by omega
        rwa [hshift]

/-! The search goes down far enough. -/

theorem ten_pow_lt {n m : Nat} (h : 10 * n < 3 * m) : 10 ^ n < 2 ^ m := by
  refine lt_of_pow_lt_pow_left₀ 3 (Nat.zero_le _) ?_
  calc (10 ^ n) ^ 3 = (10 ^ 3) ^ n := by rw [← pow_mul, ← pow_mul, Nat.mul_comm]
    _ ≤ (2 ^ 10) ^ n := Nat.pow_le_pow_left (by decide) n
    _ = 2 ^ (10 * n) := (pow_mul 2 10 n).symm
    _ < 2 ^ (3 * m) := Nat.pow_lt_pow_right (by decide) h
    _ = (2 ^ m) ^ 3 := by rw [← pow_mul, Nat.mul_comm]

theorem two_pow_lt {n m : Nat} (hn : n ≠ 0) (h : 10 * m ≤ 33 * n) : 2 ^ m < 10 ^ n := by
  refine lt_of_pow_lt_pow_left₀ 10 (Nat.zero_le _) ?_
  calc (2 ^ m) ^ 10 = 2 ^ (10 * m) := by rw [← pow_mul, Nat.mul_comm]
    _ ≤ 2 ^ (33 * n) := Nat.pow_le_pow_right (by decide) h
    _ = (2 ^ 33) ^ n := pow_mul 2 33 n
    _ < (10 ^ 10) ^ n := Nat.pow_lt_pow_left (by decide) hn
    _ = (10 ^ n) ^ 10 := by rw [← pow_mul, ← pow_mul, Nat.mul_comm]

/-- The estimate of the logarithm leaves room over the whole range of exponents. -/
theorem ten_zpow_lt {k e : Int} (h : 100000 * k + 444335 ≤ 30103 * e) (hlow : -1076 ≤ e)
    (hhigh : e ≤ 969) : (10 : Rat) ^ k < 2 ^ (e + 1) := by
  by_cases hk : 0 ≤ k
  · have hpow : 10 ^ k.toNat < 2 ^ (e + 1).toNat := ten_pow_lt (by omega)
    have hcast : (10 : Rat) ^ k.toNat < 2 ^ (e + 1).toNat := by exact_mod_cast hpow
    rwa [← zpow_natCast, ← zpow_natCast, Int.toNat_of_nonneg hk,
      Int.toNat_of_nonneg (by omega)] at hcast
  · have hpow : 2 ^ (-(e + 1)).toNat < 10 ^ (-k).toNat := two_pow_lt (by omega) (by omega)
    have hcast : (2 : Rat) ^ (-(e + 1)).toNat < 10 ^ (-k).toNat := by exact_mod_cast hpow
    calc (10 : Rat) ^ k = (10 ^ (-k).toNat)⁻¹ := zpow_of_neg 10 (by omega)
      _ < (2 ^ (-(e + 1)).toNat)⁻¹ := inv_strictAnti₀ (by positivity) hcast
      _ = 2 ^ (-((-(e + 1)).toNat : Int)) := by rw [zpow_neg, zpow_natCast]
      _ ≤ 2 ^ (e + 1) := zpow_le_zpow_right₀ (by norm_num) (by omega)

theorem fine_start {i : Interval} (hvalue : i.value < 2 ^ 55) (hlow : -1076 ≤ i.exponent)
    (hhigh : i.exponent ≤ 969) :
    step i.exponent (i.start - 23) < 2 * unit i.exponent (i.start - 23) := by
  have hlog : i.value.log2 ≤ 54 := by
    by_cases hzero : i.value = 0
    · simp [hzero]
    · exact Nat.le_of_lt_succ ((Nat.log2_lt hzero).2 hvalue)
  have hstart : 100000 * (i.start - 23) + 444335 ≤ 30103 * i.exponent := by
    rw [start, Int.fdiv_eq_ediv_of_nonneg _ (by decide)]
    omega
  have hstep := measures_step i.exponent (i.start - 23) 1
  have htwice := measures_unit i.exponent (i.start - 23) 2
  have hpow := ten_zpow_lt hstart hlow hhigh
  rw [zpow_add_one₀ (by norm_num), mul_comm] at hpow
  have hlt := (not_congr (htwice.le_iff hstep)).2 (by push_cast; rw [one_mul]; exact not_le.2 hpow)
  omega

end Interval

theorem holds_shortest {x : Binary64} (h : x.isFinite) :
    (Interval.of x).Holds ((shortest x).1 * 10 ^ (shortest x).2) := by
  refine Interval.holds_search _ 24 _ ⟨23, by decide, Interval.isSome_onGrid? ?_⟩
  have hfield : x.exponentField < 2047 := by
    have hne : x.exponentField ≠ 2047 := by simpa [Binary64.isFinite] using h
    have hlt : x.exponentField < 2048 := Nat.mod_lt _ (by decide)
    omega
  have hfraction : x.fraction < 0x10000000000000 := Nat.mod_lt _ (by decide)
  refine Interval.fine_start ?_ ?_ ?_
  · simp only [Interval.of, Binary64.significand]
    split <;> omega
  · simp only [Interval.of, Binary64.scale]
    omega
  · simp only [Interval.of, Binary64.scale]
    omega

/-! The rounding intervals of the finite magnitudes, one after another. -/

namespace Interval

def nth (n : Nat) : Interval where
  value := 4 * if n / 2 ^ 52 = 0 then n % 2 ^ 52 else 2 ^ 52 + n % 2 ^ 52
  below := if n % 2 ^ 52 = 0 ∧ 1 < n / 2 ^ 52 then 1 else 2
  closed := n % 2 = 0
  exponent := max ((n / 2 ^ 52 : Nat) : Int) 1 - 1077

theorem of_eq_nth (x : Binary64) : of x = nth (x.bits.toNat % 2 ^ 63) := by
  unfold of nth Binary64.significand Binary64.scale
  rw [x.exponentField_eq, x.fraction_eq, mk.injEq]
  refine ⟨rfl, rfl, ?_, by omega⟩
  rw [decide_eq_decide]
  split <;> omega

/-- Where one interval ends the next one begins, within a binade and from one to the next. -/
theorem low_nth_succ (n : Nat) : (nth (n + 1)).low = (nth n).high := by
  simp only [low, high, nth]
  by_cases hcarry : (n + 1) % 2 ^ 52 = 0
  · have hfield : (n + 1) / 2 ^ 52 = n / 2 ^ 52 + 1 := by omega
    have hfraction : n % 2 ^ 52 = 2 ^ 52 - 1 := by omega
    rw [hfield, hfraction, hcarry]
    generalize n / 2 ^ 52 = field
    by_cases hfirst : field = 0
    · -- the first binade goes on with the scale of what is below it
      subst hfirst
      norm_num
    · have hscale : max ((field + 1 : Nat) : Int) 1 - 1077 = max (field : Int) 1 - 1077 + 1 := by
        omega
      rw [hscale, zpow_add_one₀ (by norm_num), if_neg (Nat.succ_ne_zero field), if_neg hfirst,
        if_pos ⟨rfl, by omega⟩]
      norm_num
      ring
  · have hfield : (n + 1) / 2 ^ 52 = n / 2 ^ 52 := by omega
    have hfraction : (n + 1) % 2 ^ 52 = n % 2 ^ 52 + 1 := by omega
    have hbelow : ¬ (n % 2 ^ 52 + 1 = 0 ∧ 1 < n / 2 ^ 52) := fun h => Nat.succ_ne_zero _ h.1
    rw [hfield, hfraction, if_neg hbelow]
    congr 2
    split_ifs <;> omega

theorem low_nth_lt_high (n : Nat) : (nth n).low < (nth n).high := by
  have hlt : (nth n).value - (nth n).below < (nth n).value + 2 := by omega
  have hcast : (((nth n).value - (nth n).below : Nat) : Rat) < ((nth n).value + 2 : Nat) :=
    Nat.cast_lt.2 hlt
  exact mul_lt_mul_of_pos_right hcast (by positivity)

theorem strictMono_high : StrictMono fun n => (nth n).high :=
  strictMono_nat_of_lt_succ fun n => by
    rw [← low_nth_succ]
    exact low_nth_lt_high (n + 1)

/-- A value reads back to one magnitude only. Of two intervals that touch, one is open. -/
theorem Holds.unique {n m : Nat} {v : Rat} (h : (nth n).Holds v) (h' : (nth m).Holds v) :
    n = m := by
  wlog hle : n ≤ m
  · exact (this h' h (Nat.le_of_not_le hle)).symm
  by_contra hne
  obtain ⟨next, rfl⟩ : ∃ next, m = next + 1 := ⟨m - 1, by omega⟩
  have hends : (nth next).high = (nth n).high := by
    refine le_antisymm ?_ (strictMono_high.monotone (by omega))
    rw [← low_nth_succ]
    exact h'.low.trans h.high
  obtain rfl : next = n := strictMono_high.injective hends
  have htouch : v = (nth next).high :=
    le_antisymm h.high ((low_nth_succ next).symm.trans_le h'.low)
  by_cases hclosed : (nth next).closed
  · have hopen : (nth (next + 1)).closed = false := by
      simp only [nth, decide_eq_true_eq, decide_eq_false_iff_not] at hclosed ⊢
      omega
    exact (h'.ends hopen).1 ((low_nth_succ next).trans htouch.symm)
  · exact (h.ends (by simpa using hclosed)).2 htouch

end Interval

end Decimal
end SeriesIngest
