import SeriesIngest.Proofs.Wire.ZigZag
import Mathlib.Data.Nat.Bitwise

/-! Varints by shifts and masks of 64-bit words. They are the same bytes, and the same values are read
from any bytes, since what a shift drops is a multiple of the size of a word. -/
namespace SeriesIngest.ZigZag

def foldWord (v : Int64) : UInt64 := ((v <<< 1) ^^^ (v >>> 63)).toUInt64

def unfoldWord (u : UInt64) : Int64 := (u >>> 1).toInt64 ^^^ -(u &&& 1).toInt64

theorem toNat_shiftRight_seven (u : UInt64) : (u >>> 7).toNat = u.toNat / 128 :=
  Nat.shiftRight_eq_div_pow u.toNat 7

def wordGroups (u : UInt64) : List UInt8 :=
  if u < 0x80 then [u.toUInt8] else (u.toUInt8 ||| 0x80) :: wordGroups (u >>> 7)
termination_by u.toNat
decreasing_by
  rename_i hmore
  rw [UInt64.lt_iff_toNat_lt] at hmore
  have hle : 128 ≤ u.toNat := Nat.not_lt.1 hmore
  rw [toNat_shiftRight_seven]
  omega

def readWordGroups (place word : UInt64) :
    Nat → List UInt8 → Except RecordDefect (UInt64 × List UInt8)
  | 0, _ => .error .longVarint
  | _ + 1, [] => .error .truncated
  | limit + 1, b :: rest =>
    let word := word ||| (b &&& 0x7f).toUInt64 <<< place
    if b &&& 0x80 = 0 then .ok (word, rest) else readWordGroups (place + 7) word limit rest

theorem toNat_double (v : Int64) : ((v <<< 1).toUInt64.toNat : Int) = 2 * v.toInt % 2 ^ 64 := by
  have hbits : (v <<< 1).toUInt64.toNat = v.toBitVec.toNat <<< 1 % 2 ^ 64 := by
    rw [← BitVec.toNat_shiftLeft]
    rfl
  have hint : v.toInt = (v.toBitVec.toNat : Int).bmod (2 ^ 64) := v.toBitVec.toInt_eq_toNat_bmod
  rw [hbits, Nat.shiftLeft_eq, hint, Int.bmod_def]
  omega

theorem toInt_sign (v : Int64) : (v >>> 63).toInt = v.toInt / 2 ^ 63 := by
  have hbits : (v >>> 63).toInt = v.toInt >>> (63 : Nat) := BitVec.toInt_sshiftRight
  rw [hbits, Int.shiftRight_eq_div_pow]
  rfl

theorem sign_of_neg {v : Int64} (h : v < 0) : v >>> 63 = -1 := by
  have hlow := v.le_toInt
  have hint := (neg_iff v).1 h
  have hone : (-1 : Int64).toInt = -1 := rfl
  rw [← Int64.toInt_inj, toInt_sign, hone]
  omega

theorem sign_of_not_neg {v : Int64} (h : ¬ v < 0) : v >>> 63 = 0 := by
  have hhigh := v.toInt_lt
  have hint := mt (neg_iff v).2 h
  rw [← Int64.toInt_inj, toInt_sign, Int64.toInt_zero]
  omega

theorem toNat_foldWord (v : Int64) : (foldWord v).toNat = fold v := by
  have hdouble := toNat_double v
  have hlow := v.le_toInt
  have hhigh := v.toInt_lt
  by_cases hneg : v < 0
  · -- the complement of the double
    have hint := (neg_iff v).1 hneg
    rw [foldWord, sign_of_neg hneg, Int64.xor_neg_one, Int64.toUInt64_not, UInt64.toNat_not, fold,
      if_pos hneg]
    simp only [UInt64.size]
    omega
  · have hint := mt (neg_iff v).2 hneg
    rw [foldWord, sign_of_not_neg hneg, Int64.xor_zero, fold, if_neg hneg]
    omega

theorem unfoldWord_eq (u : UInt64) : unfoldWord u = unfold u.toNat := by
  have hhalf : (u >>> 1).toInt64 = Int64.ofInt (u.toNat / 2 : Nat) := by
    have hword : u >>> 1 = UInt64.ofNat (u.toNat / 2) := by
      have hlt := u.toNat_lt
      have hshift : (u >>> 1).toNat = u.toNat / 2 := Nat.shiftRight_eq_div_pow u.toNat 1
      rw [← UInt64.toNat_inj, hshift, UInt64.toNat_ofNat']
      omega
    rw [hword, UInt64.toInt64_ofNat', Int64.ofInt_eq_ofNat]
  have hlast : (u &&& 1).toNat = u.toNat % 2 := Nat.and_two_pow_sub_one_eq_mod u.toNat 1
  by_cases heven : u.toNat % 2 = 0
  · have hzero : u &&& 1 = 0 := UInt64.toNat_inj.1 (hlast.trans heven)
    have hneg : -(0 : UInt64).toInt64 = 0 := rfl
    rw [unfoldWord, hzero, hhalf, hneg, Int64.xor_zero, unfold, if_pos heven]
  · have hodd : u.toNat % 2 = 1 := by omega
    have hone : u &&& 1 = 1 := UInt64.toNat_inj.1 (hlast.trans hodd)
    have hneg : -(1 : UInt64).toInt64 = -1 := rfl
    rw [unfoldWord, hone, hhalf, hneg, Int64.xor_neg_one, Int64.not_eq_neg_sub, unfold, if_neg heven,
      Int64.ofInt_sub, Int64.ofInt_neg]
    rfl

theorem toNat_low (b : UInt8) : (b &&& 0x7f).toNat = b.toNat % 128 :=
  Nat.and_two_pow_sub_one_eq_mod b.toNat 7

theorem high_eq_zero_iff (b : UInt8) : b &&& 0x80 = 0 ↔ b < 128 := by
  have hlt := b.toNat_lt
  have hbits : (b &&& 0x80).toNat = (b.toNat.testBit 7).toNat * 2 ^ 7 := Nat.and_two_pow b.toNat 7
  rw [← UInt8.toNat_inj, hbits, UInt8.lt_iff_toNat_lt, Nat.testBit_eq_decide_div_mod_eq]
  change _ = 0 ↔ b.toNat < 128
  by_cases hbit : b.toNat / 2 ^ 7 % 2 = 1
  · simp only [hbit, decide_true, Bool.toNat_true]
    omega
  · simp only [hbit, decide_false, Bool.toNat_false]
    omega

theorem toNat_high (u : UInt64) : (u.toUInt8 ||| 0x80).toNat = u.toNat % 128 + 128 := by
  have hor : (u.toUInt8 ||| 0x80).toNat = u.toNat % 2 ^ 8 ||| 2 ^ 7 := UInt8.toNat_or _ _
  have hlow : (u.toNat % 2 ^ 8 ||| 2 ^ 7) % 2 ^ 7 = u.toNat % 128 := by
    rw [Nat.or_mod_two_pow, Nat.mod_self, Nat.or_zero]
    omega
  have hhigh : (u.toNat % 2 ^ 8 ||| 2 ^ 7) / 2 ^ 7 = 1 := by
    rw [Nat.or_div_two_pow]
    obtain hbit | hbit : u.toNat % 2 ^ 8 / 2 ^ 7 = 0 ∨ u.toNat % 2 ^ 8 / 2 ^ 7 = 1 := by omega
    all_goals rw [hbit]; rfl
  omega

theorem wordGroups_eq (u : UInt64) : wordGroups u = groups u.toNat := by
  induction u using wordGroups.induct with
  | case1 u hlast =>
    have hlt : u.toNat < 128 := UInt64.lt_iff_toNat_lt.1 hlast
    rw [wordGroups, if_pos hlast, groups_of_lt hlt]
    rfl
  | case2 u hmore ih =>
    have hle : 128 ≤ u.toNat := Nat.not_lt.1 fun hlt => hmore (UInt64.lt_iff_toNat_lt.2 hlt)
    have hbyte : u.toUInt8 ||| 0x80 = (u.toNat % 128 + 128).toUInt8 := by
      rw [← UInt8.toNat_inj, toNat_high, toNat_toUInt8 (by omega)]
    rw [wordGroups, if_neg hmore, ih, toNat_shiftRight_seven, groups_of_le hle, hbyte]

/-- A group stands above what was read before it. What of it is past the end of the word is lost. -/
theorem toNat_put {place word : UInt64} {b : UInt8} (hplace : place.toNat < 64)
    (hword : word.toNat < 2 ^ place.toNat) :
    (word ||| (b &&& 0x7f).toUInt64 <<< place).toNat =
      word.toNat + 2 ^ place.toNat * (b.toNat % 128) % 2 ^ 64 := by
  have hgroup : ((b &&& 0x7f).toUInt64 <<< place).toNat =
      2 ^ place.toNat * (b.toNat % 128) % 2 ^ 64 := by
    rw [UInt64.toNat_shiftLeft, Nat.mod_eq_of_lt hplace, UInt8.toNat_toUInt64, toNat_low,
      Nat.shiftLeft_eq, Nat.mul_comm]
  have hwhole : 2 ^ 64 = 2 ^ place.toNat * 2 ^ (64 - place.toNat) := by
    rw [← Nat.pow_add, Nat.add_sub_cancel' (Nat.le_of_lt hplace)]
  rw [UInt64.toNat_or, hgroup, hwhole, Nat.mul_mod_mul_left, Nat.or_comm,
    ← Nat.two_pow_add_eq_or_of_lt hword, Nat.add_comm]

theorem put_lt {place word : UInt64} (b : UInt8) (hplace : place.toNat < 64)
    (hword : word.toNat < 2 ^ place.toNat) :
    (word ||| (b &&& 0x7f).toUInt64 <<< place).toNat < 2 ^ place.toNat * 128 := by
  have hgroup := Nat.mod_le (2 ^ place.toNat * (b.toNat % 128)) (2 ^ 64)
  have hsmall : 2 ^ place.toNat * (b.toNat % 128) ≤ 2 ^ place.toNat * 127 :=
    Nat.mul_le_mul_left _ (by omega)
  rw [toNat_put hplace hword]
  omega

theorem toUInt64_add_mod (a b c : Nat) : (a + b % 2 ^ 64 + c).toUInt64 = (a + b + c).toUInt64 := by
  rw [← UInt64.toNat_inj]
  simp only [Nat.toUInt64_eq, UInt64.toNat_ofNat']
  omega

theorem readWordGroups_eq {place word : UInt64} {limit : Nat} (input : List UInt8)
    (hplace : place.toNat + 7 * limit = 70) (hword : word.toNat < 2 ^ place.toNat) :
    readWordGroups place word limit input = (readGroups limit input).map fun (n, rest) =>
      ((word.toNat + 2 ^ place.toNat * n).toUInt64, rest) := by
  induction limit generalizing place word input with
  | zero => rfl
  | succ limit ih =>
    cases input with
    | nil => rfl
    | cons b input =>
      have hb := b.toNat_lt
      have hroom : place.toNat < 64 := by omega
      have hput := toNat_put (b := b) hroom hword
      rw [readWordGroups, readGroups]
      by_cases hlast : b < 128
      · have hlow : b.toNat % 128 = b.toNat := Nat.mod_eq_of_lt (UInt8.lt_iff_toNat_lt.1 hlast)
        have hvalue : word ||| (b &&& 0x7f).toUInt64 <<< place =
            (word.toNat + 2 ^ place.toNat * b.toNat).toUInt64 := by
          rw [← UInt64.ofNat_toNat (x := _ ||| _), hput, hlow]
          exact toUInt64_add_mod _ _ 0
        rw [if_pos ((high_eq_zero_iff b).2 hlast), if_pos hlast, hvalue]
        rfl
      · have hle : 128 ≤ b.toNat := Nat.not_lt.1 fun hlt => hlast (UInt8.lt_iff_toNat_lt.2 hlt)
        have hlow : b.toNat % 128 = b.toNat - 128 := by omega
        have hnext : (place + 7).toNat = place.toNat + 7 := by
          have hseven : (7 : UInt64).toNat = 7 := rfl
          rw [UInt64.toNat_add, hseven, Nat.mod_eq_of_lt (by omega)]
        have hpower : 2 ^ (place + 7).toNat = 2 ^ place.toNat * 128 := by rw [hnext, Nat.pow_add]
        -- what has been read stays below the place of the next group
        have hbelow := put_lt b hroom hword
        rw [← hpower] at hbelow
        rw [if_neg (mt (high_eq_zero_iff b).1 hlast), if_neg hlast, ih input (by omega) hbelow, hput,
          hpower, hlow]
        cases readGroups limit input with
        | error defect => simp only [Except.map]
        | ok result =>
          obtain ⟨n, rest⟩ := result
          simp only [Except.map, Except.ok.injEq, Prod.mk.injEq, and_true]
          rw [toUInt64_add_mod, Nat.mul_assoc, Nat.add_assoc, ← Nat.mul_add]

theorem encode_eq_words (v : Int64) : encode v = wordGroups (foldWord v) := by
  rw [wordGroups_eq, toNat_foldWord, encode]

theorem read_eq_words (input : List UInt8) :
    read input = (readWordGroups 0 0 10 input).map fun (u, rest) => (unfoldWord u, rest) := by
  have hgroups : readWordGroups 0 0 10 input = (readGroups 10 input).map fun (n, rest) =>
      ((0 + 2 ^ 0 * n).toUInt64, rest) := readWordGroups_eq input rfl Nat.one_pos
  rw [hgroups, read]
  cases readGroups 10 input with
  | error defect => rfl
  | ok result =>
    obtain ⟨n, rest⟩ := result
    simp only [Except.map, unfoldWord_eq]
    simp

/-- Every value is written in one to ten bytes and read back from them, whatever follows. Of any input
a varint of at most ten bytes is taken, and an input that does not begin with one is refused. Writer
and reader do what the shifts and masks of words do. -/
theorem varint_round_trip :
    (∀ v, encode v = wordGroups (foldWord v) ∧ 1 ≤ (encode v).length ∧ (encode v).length ≤ 10 ∧
      ∀ rest, read (encode v ++ rest) = .ok (v, rest)) ∧
    ∀ input, read input =
        ((readWordGroups 0 0 10 input).map fun (u, rest) => (unfoldWord u, rest)) ∧
      (((∀ b ∈ input.take 10, 128 ≤ b) ∧
          read input = .error (if input.length < 10 then .truncated else .longVarint)) ∨
        ∃ v used rest, IsVarint used ∧ used.length ≤ 10 ∧ input = used ++ rest ∧
          read input = .ok (v, rest)) := by
  constructor
  · intro v
    exact ⟨encode_eq_words v, length_encode_pos v, length_encode_le v, read_encode v⟩
  · intro input
    exact ⟨read_eq_words input, read_cases input⟩

/-- The least value takes all ten bytes. -/
example : encode Int64.minValue = [255, 255, 255, 255, 255, 255, 255, 255, 255, 1] := by
  decide +kernel

end SeriesIngest.ZigZag
