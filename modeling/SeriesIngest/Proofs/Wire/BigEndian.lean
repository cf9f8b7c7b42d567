import SeriesIngest.Wire
import Mathlib.Algebra.Group.Nat.Even
import Mathlib.Algebra.Order.Monoid.Unbundled.Pow

/-! Writing and reading numbers of a fixed width are inverse to each other, up to the range of
the width. -/
namespace SeriesIngest.BigEndian

@[simp] theorem length_encode (width n : Nat) : (encode width n).length = width := by
  induction width generalizing n with
  | zero => rfl
  | succ width ih => simp [encode, ih]

theorem decode_concat (bytes : List UInt8) (b : UInt8) :
    decode (bytes ++ [b]) = 256 * decode bytes + b.toNat := by
  simp [decode]

theorem decode_encode (width n : Nat) : decode (encode width n) = n % 256 ^ width := by
  induction width generalizing n with
  | zero => simp [encode, decode, Nat.mod_one]
  | succ width ih =>
    rw [encode, decode_concat, ih, Nat.pow_succ, Nat.mul_comm (256 ^ width),
      Nat.mod_mul (x := n) (a := 256) (b := 256 ^ width)]
    simp only [Nat.toUInt8_eq, UInt8.toNat_ofNat']
    omega

theorem decode_encode_of_lt {width n : Nat} (h : n < 256 ^ width) :
    decode (encode width n) = n := by
  rw [decode_encode, Nat.mod_eq_of_lt h]

theorem encode_decode (bytes : List UInt8) : encode bytes.length (decode bytes) = bytes := by
  induction h : bytes.length generalizing bytes with
  | zero => rw [List.length_eq_zero_iff.1 h]; rfl
  | succ n ih =>
    have hne : bytes ≠ [] := fun he => by simp [he] at h
    obtain ⟨init, b, rfl⟩ : ∃ init b, bytes = init ++ [b] :=
      ⟨bytes.dropLast, bytes.getLast hne, (List.dropLast_concat_getLast hne).symm⟩
    have hb := b.toNat_lt
    have hd : (256 * decode init + b.toNat) / 256 = decode init := by omega
    have hm : (256 * decode init + b.toNat).toUInt8 = b := by
      apply UInt8.toNat_inj.1
      simp only [Nat.toUInt8_eq, UInt8.toNat_ofNat']
      omega
    rw [encode, decode_concat, hd, hm, ih init (by simpa using h)]

theorem decode_lt (bytes : List UInt8) : decode bytes < 256 ^ bytes.length := by
  have h := decode_encode bytes.length (decode bytes)
  rw [encode_decode] at h
  rw [h]
  exact Nat.mod_lt _ (Nat.pow_pos (by decide))

end SeriesIngest.BigEndian
