/-! Decimal digits of naturals and integers, most significant first. Main statement:
reading the digits of a number gives the number back. -/
namespace SeriesIngest.Decimal

def digit (d : Nat) : Char := Char.ofNat (48 + d)

def digits (n : Nat) : List Char :=
  if n < 10 then [digit n] else digits (n / 10) ++ [digit (n % 10)]
termination_by n
decreasing_by omega

def intDigits (i : Int) : List Char :=
  if i < 0 then '-' :: digits i.natAbs else digits i.natAbs

def digitValue (c : Char) : Nat := c.toNat - 48

def ofDigits (cs : List Char) : Nat := cs.foldl (fun n c => 10 * n + digitValue c) 0

theorem digitValue_digit {d : Nat} (h : d < 10) : digitValue (digit d) = d := by
  have : ∀ i : Fin 10, digitValue (digit i.val) = i.val := by decide
  exact this ⟨d, h⟩

theorem ofDigits_digits (n : Nat) : ofDigits (digits n) = n := by
  fun_induction digits n with
  | case1 n h => simp [ofDigits, digitValue_digit h]
  | case2 n h ih =>
    rw [ofDigits, List.foldl_append]
    change 10 * ofDigits (digits (n / 10)) + digitValue (digit (n % 10)) = n
    rw [ih, digitValue_digit (by omega)]
    omega

theorem isDigit_of_mem_digits {n : Nat} {c : Char} (h : c ∈ digits n) : c.isDigit = true := by
  have digit_ok : ∀ i : Fin 10, (digit i.val).isDigit = true := by decide
  induction n using Nat.strongRecOn with
  | ind n ih =>
    rw [digits] at h
    split at h
    · rename_i small
      simp only [List.mem_singleton] at h
      exact h ▸ digit_ok ⟨n, small⟩
    · simp only [List.mem_append, List.mem_singleton] at h
      rcases h with h | h
      · exact ih (n / 10) (by omega) h
      · exact h ▸ digit_ok ⟨n % 10, by omega⟩

end SeriesIngest.Decimal
