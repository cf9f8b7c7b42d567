import SeriesIngest.Proofs.Decimal.Interval

/-! Whole numbers as floats. A whole number of the 64-bit range becomes the float of the nearest number
with 53 significant bits. One that has no more of them keeps its value, and two become the same float
exactly when they have the same nearest number. -/
namespace SeriesIngest.Binary64

def lastPlace (n : Nat) : Nat := 2 ^ (n.log2 - 52)

/-- The nearest number of at most 53 significant bits, of two such the one whose last bit is off. -/
def rounded (n : Nat) : Nat := nearestEven n (lastPlace n) * lastPlace n

theorem lastPlace_pos (n : Nat) : 0 < lastPlace n := Nat.two_pow_pos _

theorem nearestEven_bounds (num den : Nat) :
    num / den ≤ nearestEven num den ∧ nearestEven num den ≤ num / den + 1 := by
  unfold nearestEven
  dsimp only
  split_ifs <;> omega

theorem nearestEven_mul (q : Nat) {den : Nat} (h : 0 < den) : nearestEven (q * den) den = q := by
  unfold nearestEven
  rw [Nat.mul_div_cancel q h, Nat.mul_mod_left]
  simp [h]

theorem near_nearestEven (num : Nat) {den : Nat} (h : 0 < den) :
    2 * ((nearestEven num den * den : Nat) - (num : Int)).natAbs ≤ den := by
  have hdiv := Nat.div_add_mod' num den
  have hmod := Nat.mod_lt num h
  have hup : (num / den + 1) * den = num / den * den + den := Nat.succ_mul _ _
  unfold nearestEven
  dsimp only
  split_ifs with hlow hhigh
  · omega
  · omega
  · -- a tie, of whose neighbours the even one is taken
    rcases Nat.mod_two_eq_zero_or_one (num / den) with heven | hodd
    · rw [heven, Nat.add_zero]
      omega
    · rw [hodd]
      omega

theorem rounded_eq_self_iff (n : Nat) : rounded n = n ↔ lastPlace n ∣ n := by
  constructor
  · intro h
    exact ⟨_, h.symm.trans (Nat.mul_comm _ _)⟩
  · rintro ⟨q, hq⟩
    have hnearest := nearestEven_mul q (lastPlace_pos n)
    rw [Nat.mul_comm, ← hq] at hnearest
    rw [rounded, hnearest, Nat.mul_comm, ← hq]

theorem scaled_one (n : Nat) (e : Int) : scaled n 1 e = (n * 2 ^ (-e).toNat, 2 ^ e.toNat) := by
  unfold scaled
  split
  · have hneg : (-e).toNat = 0 := by omega
    rw [hneg, Nat.one_shiftLeft, Nat.pow_zero, Nat.mul_one]
  · have hpos : e.toNat = 0 := by omega
    rw [hpos, Nat.shiftLeft_eq, Nat.pow_zero]

theorem placed_bounds {n : Nat} (h : n ≠ 0) :
    2 ^ 52 ≤ n * 2 ^ (52 - n.log2) / lastPlace n ∧ n * 2 ^ (52 - n.log2) / lastPlace n < 2 ^ 53 := by
  have hlow := Nat.log2_self_le h
  have hhigh := @Nat.lt_log2_self n
  rw [Nat.le_div_iff_mul_le (lastPlace_pos n), Nat.div_lt_iff_lt_mul (lastPlace_pos n), lastPlace,
    ← Nat.pow_add, ← Nat.pow_add]
  generalize n.log2 = k at hlow hhigh
  have hshift : 52 + (k - 52) = k + (52 - k) := by omega
  have hshift' : 53 + (k - 52) = k + 1 + (52 - k) := by omega
  rw [hshift, hshift', Nat.pow_add, Nat.pow_add]
  exact ⟨Nat.mul_le_mul_right _ hlow, Nat.mul_lt_mul_of_pos_right hhigh (Nat.two_pow_pos _)⟩

theorem bits_ofNat {n : Nat} (h : n ≠ 0) (hlt : n < 2 ^ 64) :
    (ofNat n).bits.toNat =
      (n.log2 + 1022) * 2 ^ 52 + nearestEven (n * 2 ^ (52 - n.log2)) (lastPlace n) := by
  have hlog : n.log2 < 64 := (Nat.log2_lt h).2 hlt
  obtain ⟨hlow, hhigh⟩ := placed_bounds h
  have hbounds := nearestEven_bounds (n * 2 ^ (52 - n.log2)) (lastPlace n)
  have hone : Nat.log2 1 = 0 := by decide
  have hneg : (-((n.log2 : Int) - 0 - 52)).toNat = 52 - n.log2 := by omega
  have hpos : ((n.log2 : Int) - 0 - 52).toNat = n.log2 - 52 := by omega
  have hguess : max ((n.log2 : Int) - 0 - 52) (-1074) = n.log2 - 0 - 52 := by omega
  unfold ofNat ofQuotient
  rw [if_neg h, hone]
  simp only [scaled_one, Nat.cast_zero, hneg, hpos]
  rw [← lastPlace, if_neg (by omega), hguess, hneg, hpos, ← lastPlace]
  have hfield : ((n.log2 : Int) - 0 - 52 + 1074).toNat = n.log2 + 1022 := by omega
  rw [hfield, Nat.min_eq_left (by omega), Nat.toUInt64_eq, UInt64.toNat_ofNat',
    Nat.mod_eq_of_lt (by omega)]
  rfl

def magnitude (x : Binary64) : Rat := x.significand * 2 ^ x.scale

/-- A significand that runs over carries into the exponent. -/
theorem magnitude_of_bits {x : Binary64} {field place : Nat}
    (h : x.bits.toNat % 2 ^ 63 = field * 2 ^ 52 + place) (hlow : 2 ^ 52 ≤ place)
    (hhigh : place ≤ 2 ^ 53) (hfield : field < 2045) :
    x.magnitude = place * 2 ^ ((field : Int) - 1074) := by
  rw [magnitude, significand, scale, exponentField_eq, fraction_eq, h]
  by_cases hcarry : place = 2 ^ 53
  · have hdiv : (field * 2 ^ 52 + place) / 2 ^ 52 = field + 2 := by omega
    have hmod : (field * 2 ^ 52 + place) % 2 ^ 52 = 0 := by omega
    have hscale : ((max (field + 2) 1 : Nat) : Int) - 1075 = field - 1074 + 1 := by omega
    rw [hdiv, hmod, if_neg (Nat.succ_ne_zero _), hscale, zpow_add_one₀ (by norm_num), hcarry]
    push_cast
    ring
  · have hdiv : (field * 2 ^ 52 + place) / 2 ^ 52 = field + 1 := by omega
    have hmod : 0x10000000000000 + (field * 2 ^ 52 + place) % 2 ^ 52 = place := by omega
    have hscale : ((max (field + 1) 1 : Nat) : Int) - 1075 = field - 1074 := by omega
    rw [hdiv, if_neg (Nat.succ_ne_zero _), hmod, hscale]

theorem placed_eq_rounded (n : Nat) :
    (nearestEven (n * 2 ^ (52 - n.log2)) (lastPlace n) : Rat) * 2 ^ ((n.log2 : Int) - 52) =
      rounded n := by
  by_cases hk : n.log2 ≤ 52
  · have hplace : lastPlace n = 1 := by rw [lastPlace, Nat.sub_eq_zero_of_le hk, Nat.pow_zero]
    have hexact := nearestEven_mul (n * 2 ^ (52 - n.log2)) Nat.one_pos
    have hwhole := nearestEven_mul n Nat.one_pos
    have hexponent : ((52 - n.log2 : Nat) : Int) + (n.log2 - 52) = 0 := by omega
    rw [Nat.mul_one] at hexact hwhole
    rw [rounded, hplace, hexact, hwhole, Nat.mul_one, Nat.cast_mul, Nat.cast_pow, mul_assoc,
      ← zpow_natCast, Nat.cast_ofNat, ← zpow_add₀ two_ne_zero, hexponent, zpow_zero, mul_one]
  · have hshift : 52 - n.log2 = 0 := by omega
    have hexponent : (n.log2 : Int) - 52 = (n.log2 - 52 : Nat) := by omega
    rw [rounded, hshift, hexponent, zpow_natCast, Nat.pow_zero, Nat.mul_one, lastPlace]
    push_cast
    rfl

theorem magnitude_ofNat {n : Nat} (h : n < 2 ^ 64) : (ofNat n).magnitude = rounded n := by
  by_cases hzero : n = 0
  · subst hzero
    have hbits : ofNat 0 = ⟨0⟩ := rfl
    rw [hbits]
    norm_num [magnitude, significand, exponentField, fraction, rounded, nearestEven]
  · have hlog : n.log2 < 64 := (Nat.log2_lt hzero).2 h
    have hbits := bits_ofNat hzero h
    obtain ⟨hlow, hhigh⟩ := placed_bounds hzero
    have hbounds := nearestEven_bounds (n * 2 ^ (52 - n.log2)) (lastPlace n)
    have hsmall : (ofNat n).bits.toNat % 2 ^ 63 = (n.log2 + 1022) * 2 ^ 52 +
        nearestEven (n * 2 ^ (52 - n.log2)) (lastPlace n) := by omega
    have hscale : ((n.log2 + 1022 : Nat) : Int) - 1074 = n.log2 - 52 := by omega
    rw [magnitude_of_bits hsmall (by omega) (by omega) (by omega), hscale, placed_eq_rounded]

/-! Signs and values. -/

theorem holds_magnitude (x : Binary64) : (Decimal.Interval.of x).Holds x.magnitude := by
  have hvalue : x.magnitude =
      (Decimal.Interval.of x).value * 2 ^ (Decimal.Interval.of x).exponent := by
    have hscale : x.scale = x.scale - 2 + 2 := by omega
    rw [magnitude, hscale, zpow_add₀ two_ne_zero]
    simp only [Decimal.Interval.of]
    push_cast
    ring
  have hunit : (0 : Rat) < 2 ^ (Decimal.Interval.of x).exponent := by positivity
  rw [hvalue]
  refine ⟨?_, ?_, fun hopen => ⟨?_, ?_⟩⟩
  · exact mul_le_mul_of_nonneg_right (Nat.cast_le.2 (Nat.sub_le _ _)) hunit.le
  · exact mul_le_mul_of_nonneg_right (Nat.cast_le.2 (Nat.le_add_right _ _)) hunit.le
  · have hlow : (Decimal.Interval.of x).value - (Decimal.Interval.of x).below <
        (Decimal.Interval.of x).value := by
      simp only [Decimal.Interval.of, decide_eq_false_iff_not] at hopen ⊢
      split_ifs <;> omega
    exact (mul_lt_mul_of_pos_right (Nat.cast_lt.2 hlow) hunit).ne
  · exact (mul_lt_mul_of_pos_right (Nat.cast_lt.2 (Nat.lt_add_of_pos_right two_pos)) hunit).ne

theorem magnitude_eq_iff {x y : Binary64} :
    x.magnitude = y.magnitude ↔ x.bits.toNat % 2 ^ 63 = y.bits.toNat % 2 ^ 63 := by
  constructor
  · intro h
    have hx := x.holds_magnitude
    have hy := y.holds_magnitude
    rw [Decimal.Interval.of_eq_nth] at hx hy
    rw [h] at hx
    exact hx.unique hy
  · intro h
    simp only [magnitude, significand, scale, exponentField_eq, fraction_eq, h]

theorem bits_neg {x : Binary64} (h : x.bits.toNat < 2 ^ 63) :
    x.neg.bits.toNat = x.bits.toNat + 2 ^ 63 := by
  have hxor : x.neg.bits.toNat = x.bits.toNat ^^^ 2 ^ 63 := by
    rw [neg, UInt64.toNat_xor]
    rfl
  have hmod := Nat.xor_mod_two_pow (a := x.bits.toNat) (b := 2 ^ 63) (n := 63)
  have hdiv := Nat.xor_div_two_pow (a := x.bits.toNat) (b := 2 ^ 63) (n := 63)
  rw [Nat.mod_eq_of_lt h, Nat.mod_self, Nat.xor_zero] at hmod
  rw [Nat.div_eq_of_lt h, Nat.div_self (by decide), Nat.zero_xor] at hdiv
  omega

def value (x : Binary64) : Rat := (if x.isNegative then -1 else 1) * x.magnitude

def roundedInt (i : Int) : Int := i.sign * rounded i.natAbs

def Fits (i : Int) : Prop := lastPlace i.natAbs ∣ i.natAbs

instance (i : Int) : Decidable (Fits i) := inferInstanceAs (Decidable (_ ∣ _))

theorem fits_of_le {i : Int} (h : i.natAbs ≤ 2 ^ 53) : Fits i := by
  rw [Fits, lastPlace]
  by_cases hlt : i.natAbs < 2 ^ 53
  · by_cases hzero : i.natAbs = 0
    · rw [hzero]
      exact Nat.dvd_zero _
    · have hlog : i.natAbs.log2 < 53 := (Nat.log2_lt hzero).2 hlt
      rw [Nat.sub_eq_zero_of_le (by omega)]
      exact Nat.one_dvd _
  · have heq : i.natAbs = 2 ^ 53 := by omega
    rw [heq, Nat.log2_two_pow]
    exact Nat.pow_dvd_pow 2 (by decide)

theorem bits_ofNat_lt {n : Nat} (h : n < 2 ^ 64) : (ofNat n).bits.toNat < 2 ^ 63 := by
  by_cases hzero : n = 0
  · subst hzero
    decide
  · have hlog : n.log2 < 64 := (Nat.log2_lt hzero).2 h
    obtain ⟨-, hhigh⟩ := placed_bounds hzero
    have hbounds := nearestEven_bounds (n * 2 ^ (52 - n.log2)) (lastPlace n)
    rw [bits_ofNat hzero h]
    omega

theorem rounded_pos {n : Nat} (h : n ≠ 0) : 0 < rounded n := by
  have hplace : lastPlace n ≤ n :=
    (Nat.pow_le_pow_right two_pos (Nat.sub_le _ _)).trans (Nat.log2_self_le h)
  have hdiv : 0 < n / lastPlace n := Nat.div_pos hplace (lastPlace_pos n)
  exact Nat.mul_pos (hdiv.trans_le (nearestEven_bounds _ _).1) (lastPlace_pos n)

theorem bits_ofInt {i : Int} (h : i.natAbs < 2 ^ 64) :
    (ofInt i).bits.toNat = (ofNat i.natAbs).bits.toNat + if i < 0 then 2 ^ 63 else 0 := by
  unfold ofInt
  split
  · exact bits_neg (bits_ofNat_lt h)
  · rfl

theorem isNegative_ofInt {i : Int} (h : i.natAbs < 2 ^ 64) :
    (ofInt i).isNegative = decide (i < 0) := by
  have hlt := bits_ofNat_lt h
  rw [isNegative, bits_ofInt h, decide_eq_decide]
  split <;> omega

theorem magnitude_ofInt {i : Int} (h : i.natAbs < 2 ^ 64) :
    (ofInt i).magnitude = rounded i.natAbs := by
  rw [← magnitude_ofNat h, magnitude_eq_iff, bits_ofInt h]
  split <;> omega

theorem rounded_zero : rounded 0 = 0 := (rounded_eq_self_iff 0).2 (Nat.dvd_zero _)

theorem natAbs_roundedInt (i : Int) : (roundedInt i).natAbs = rounded i.natAbs := by
  by_cases hzero : i = 0
  · subst hzero
    rfl
  · rw [roundedInt, Int.natAbs_mul, Int.natAbs_sign_of_ne_zero hzero, Nat.one_mul,
      Int.natAbs_natCast]

theorem roundedInt_eq_self_iff (i : Int) : roundedInt i = i ↔ Fits i := by
  rw [Fits, ← rounded_eq_self_iff]
  constructor
  · intro h
    rw [← natAbs_roundedInt, h]
  · intro h
    rw [roundedInt, h, Int.sign_mul_natAbs]

theorem near_roundedInt (i : Int) : 2 * (roundedInt i - i).natAbs ≤ lastPlace i.natAbs := by
  have hnear := near_nearestEven i.natAbs (lastPlace_pos i.natAbs)
  rw [← rounded] at hnear
  have hsplit : roundedInt i - i = i.sign * (rounded i.natAbs - i.natAbs) := by
    rw [mul_sub, Int.sign_mul_natAbs, roundedInt]
  by_cases hzero : i = 0
  · subst hzero
    decide
  · rwa [hsplit, Int.natAbs_mul, Int.natAbs_sign_of_ne_zero hzero, Nat.one_mul]

theorem roundedInt_neg_iff (i : Int) : roundedInt i < 0 ↔ i < 0 := by
  by_cases hzero : i = 0
  · subst hzero
    rfl
  · have hpos := rounded_pos (Int.natAbs_ne_zero.2 hzero)
    rw [roundedInt, mul_neg_iff, Int.sign_neg_iff]
    omega

theorem value_ofInt {i : Int} (h : i.natAbs < 2 ^ 64) : (ofInt i).value = roundedInt i := by
  rw [value, isNegative_ofInt h, magnitude_ofInt h, roundedInt]
  rcases Int.lt_trichotomy i 0 with hneg | rfl | hpos
  · simp [hneg, Int.sign_eq_neg_one_of_neg hneg]
  · simp [rounded_zero]
  · simp [Int.sign_eq_one_of_pos hpos, Int.not_lt.2 hpos.le]

/-- Two whole numbers have one float exactly when the nearest numbers of 53 bits are the same. -/
theorem ofInt_eq_iff {i j : Int} (hi : i.natAbs < 2 ^ 64) (hj : j.natAbs < 2 ^ 64) :
    ofInt i = ofInt j ↔ roundedInt i = roundedInt j := by
  constructor
  · intro h
    have hvalue := congrArg value h
    rw [value_ofInt hi, value_ofInt hj] at hvalue
    exact_mod_cast hvalue
  · intro h
    have hrounded := congrArg Int.natAbs h
    rw [natAbs_roundedInt, natAbs_roundedInt] at hrounded
    have hmagnitude : (ofNat i.natAbs).magnitude = (ofNat j.natAbs).magnitude := by
      rw [magnitude_ofNat hi, magnitude_ofNat hj, hrounded]
    have hbits := magnitude_eq_iff.1 hmagnitude
    rw [Nat.mod_eq_of_lt (bits_ofNat_lt hi), Nat.mod_eq_of_lt (bits_ofNat_lt hj)] at hbits
    have hsign : i < 0 ↔ j < 0 := by rw [← roundedInt_neg_iff, h, roundedInt_neg_iff]
    have hsame : (ofInt i).bits.toNat = (ofInt j).bits.toNat := by
      rw [bits_ofInt hi, bits_ofInt hj, hbits]
      simp only [hsign]
    exact congrArg mk (UInt64.toNat_inj.1 hsame)

end SeriesIngest.Binary64
