import SeriesIngest.Wire
import Mathlib.Algebra.Group.Nat.Even
import Mathlib.Algebra.Order.Monoid.Unbundled.Pow

/-! A varint is read back whatever follows it, and no more than its ten bytes at most are taken of any
input. -/
namespace SeriesIngest.ZigZag

theorem toNat_toUInt8 {n : Nat} (h : n < 256) : n.toUInt8.toNat = n := by
  rw [Nat.toUInt8_eq, UInt8.toNat_ofNat', Nat.mod_eq_of_lt h]

theorem groups_of_lt {n : Nat} (h : n < 128) : groups n = [n.toUInt8] := by
  rw [groups, if_pos h]

theorem groups_of_le {n : Nat} (h : 128 ≤ n) :
    groups n = (n % 128 + 128).toUInt8 :: groups (n / 128) := by
  rw [groups, if_neg (Nat.not_lt.2 h)]

theorem div_lt_pow {limit n : Nat} (h : n < 128 ^ (limit + 1 + 1)) :
    n / 128 < 128 ^ (limit + 1) := by
  rw [Nat.pow_succ'] at h
  exact Nat.div_lt_of_lt_mul h

theorem readGroups_last {n : Nat} (h : n < 128) (limit : Nat) (rest : List UInt8) :
    readGroups (limit + 1) (groups n ++ rest) = .ok (n, rest) := by
  have hbyte : n.toUInt8.toNat = n := toNat_toUInt8 (by omega)
  have hlast : n.toUInt8 < 128 := by
    rw [UInt8.lt_iff_toNat_lt, hbyte]
    exact h
  rw [groups_of_lt h, List.singleton_append, readGroups, if_pos hlast, hbyte]

theorem readGroups_groups {limit n : Nat} (h : n < 128 ^ (limit + 1)) (rest : List UInt8) :
    readGroups (limit + 1) (groups n ++ rest) = .ok (n, rest) := by
  induction limit generalizing n with
  | zero => exact readGroups_last (by simpa using h) 0 rest
  | succ limit ih =>
    by_cases hn : n < 128
    · exact readGroups_last hn _ rest
    · have hbyte : (n % 128 + 128).toUInt8.toNat = n % 128 + 128 := toNat_toUInt8 (by omega)
      have hmore : ¬ (n % 128 + 128).toUInt8 < 128 := by
        rw [UInt8.lt_iff_toNat_lt, hbyte]
        exact Nat.not_lt.2 (Nat.le_add_left _ _)
      have hsum : n % 128 + 128 - 128 + 128 * (n / 128) = n := by omega
      rw [groups_of_le (Nat.not_lt.1 hn), List.cons_append, readGroups, if_neg hmore,
        ih (div_lt_pow h), hbyte]
      simp only [hsum]

theorem neg_iff (v : Int64) : v < 0 ↔ v.toInt < 0 := Int64.lt_iff_toInt_lt

theorem fold_lt (v : Int64) : fold v < UInt64.size := by
  have hlow := v.le_toInt
  have hhigh := v.toInt_lt
  by_cases hneg : v < 0
  · have hint := (neg_iff v).1 hneg
    rw [fold, if_pos hneg]
    simp only [UInt64.size]
    omega
  · have hint := mt (neg_iff v).2 hneg
    rw [fold, if_neg hneg]
    simp only [UInt64.size]
    omega

theorem unfold_fold (v : Int64) : unfold (fold v) = v := by
  have hlow := v.le_toInt
  have hhigh := v.toInt_lt
  by_cases hneg : v < 0
  · have hint := (neg_iff v).1 hneg
    have hodd : ¬ (2 * v.toInt.natAbs - 1) % 2 = 0 := by omega
    have hhalf : -(((2 * v.toInt.natAbs - 1) / 2 : Nat) : Int) - 1 = v.toInt := by omega
    rw [fold, if_pos hneg, unfold, if_neg hodd, hhalf, Int64.ofInt_toInt]
  · have hint := mt (neg_iff v).2 hneg
    have heven : 2 * v.toInt.natAbs % 2 = 0 := by omega
    have hhalf : ((2 * v.toInt.natAbs / 2 : Nat) : Int) = v.toInt := by omega
    rw [fold, if_neg hneg, unfold, if_pos heven, hhalf, Int64.ofInt_toInt]

theorem fold_unfold {n : Nat} (h : n < UInt64.size) : fold (unfold n) = n := by
  simp only [UInt64.size] at h
  by_cases heven : n % 2 = 0
  · have hint : (unfold n).toInt = (n / 2 : Nat) := by
      rw [unfold, if_pos heven, Int64.toInt_ofInt_of_le] <;> omega
    have hneg : ¬ unfold n < 0 := by
      rw [neg_iff, hint]
      omega
    rw [fold, if_neg hneg, hint]
    omega
  · have hint : (unfold n).toInt = -(n / 2 : Nat) - 1 := by
      rw [unfold, if_neg heven, Int64.toInt_ofInt_of_le] <;> omega
    have hneg : unfold n < 0 := by
      rw [neg_iff, hint]
      omega
    rw [fold, if_pos hneg, hint]
    omega

theorem read_encode (v : Int64) (rest : List UInt8) : read (encode v ++ rest) = .ok (v, rest) := by
  have hlt : fold v < 128 ^ 10 := (fold_lt v).trans (by decide)
  unfold read encode
  rw [readGroups_groups hlt]
  simp only [Except.map, Nat.mod_eq_of_lt (fold_lt v), unfold_fold]

theorem singleton_of_read {byte : UInt8} {v : Int64} {rest : List UInt8}
    (h : read [byte] = .ok (v, rest)) : [byte] = encode v := by
  rw [read, readGroups] at h
  by_cases hlast : byte < 128
  · have hlt := UInt8.lt_iff_toNat_lt.1 hlast
    have hsize : byte.toNat < UInt64.size := byte.toNat_lt.trans (by decide)
    rw [if_pos hlast] at h
    simp only [Except.map, Nat.mod_eq_of_lt hsize] at h
    cases h
    rw [encode, fold_unfold hsize, groups_of_lt hlt]
    simp
  · rw [if_neg hlast] at h
    cases h

theorem encode_ne_nil (v : Int64) : encode v ≠ [] := by
  unfold encode groups
  split <;> exact List.cons_ne_nil _ _

theorem length_groups_le {limit n : Nat} (h : n < 128 ^ (limit + 1)) :
    (groups n).length ≤ limit + 1 := by
  induction limit generalizing n with
  | zero => rw [groups_of_lt (by simpa using h), List.length_singleton]
  | succ limit ih =>
    by_cases hn : n < 128
    · rw [groups_of_lt hn, List.length_singleton]
      exact Nat.succ_pos _
    · rw [groups_of_le (Nat.not_lt.1 hn), List.length_cons]
      exact Nat.succ_le_succ (ih (div_lt_pow h))

theorem length_encode_pos (v : Int64) : 1 ≤ (encode v).length :=
  List.length_pos_iff.2 (encode_ne_nil v)

theorem length_encode_le (v : Int64) : (encode v).length ≤ 10 :=
  length_groups_le ((fold_lt v).trans (by decide))

/-- Only the last byte has its high bit off. -/
inductive IsVarint : List UInt8 → Prop
  | last {b : UInt8} (h : b < 128) : IsVarint [b]
  | more {b : UInt8} {rest : List UInt8} (h : 128 ≤ b) (hrest : IsVarint rest) : IsVarint (b :: rest)

theorem readGroups_cases (limit : Nat) (input : List UInt8) :
    ((∀ b ∈ input.take limit, 128 ≤ b) ∧ readGroups limit input =
        .error (if input.length < limit then .truncated else .longVarint)) ∨
      ∃ n used rest, IsVarint used ∧ used.length ≤ limit ∧ input = used ++ rest ∧
        readGroups limit input = .ok (n, rest) := by
  induction limit generalizing input with
  | zero => exact .inl ⟨by simp, rfl⟩
  | succ limit ih =>
    cases input with
    | nil => exact .inl ⟨by simp, rfl⟩
    | cons b input =>
      rw [readGroups]
      by_cases hlast : b < 128
      · rw [if_pos hlast]
        exact .inr ⟨_, [b], input, .last hlast, Nat.succ_pos limit, rfl, rfl⟩
      · have hb : 128 ≤ b := UInt8.not_lt.1 hlast
        rw [if_neg hlast]
        rcases ih input with ⟨hmore, hread⟩ | ⟨n, used, rest, hused, hlength, rfl, hread⟩
        · refine .inl ⟨List.forall_mem_cons.2 ⟨hb, hmore⟩, ?_⟩
          rw [hread]
          simp only [List.length_cons, Nat.add_lt_add_iff_right]
        · rw [hread]
          exact .inr ⟨_, b :: used, rest, .more hb hused, Nat.succ_le_succ hlength, rfl, rfl⟩

theorem read_cases (input : List UInt8) :
    ((∀ b ∈ input.take 10, 128 ≤ b) ∧
        read input = .error (if input.length < 10 then .truncated else .longVarint)) ∨
      ∃ v used rest, IsVarint used ∧ used.length ≤ 10 ∧ input = used ++ rest ∧
        read input = .ok (v, rest) := by
  rcases readGroups_cases 10 input with ⟨hmore, hread⟩ |
    ⟨n, used, rest, hused, hlength, hinput, hread⟩
  · refine .inl ⟨hmore, ?_⟩
    rw [read, hread]
    rfl
  · refine .inr ⟨unfold (n % UInt64.size), used, rest, hused, hlength, hinput, ?_⟩
    rw [read, hread]
    rfl

end SeriesIngest.ZigZag
