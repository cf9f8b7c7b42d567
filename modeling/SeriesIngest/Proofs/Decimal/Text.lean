import SeriesIngest.Proofs.Decimal.Interval
import SeriesIngest.Proofs.Line.Number

/-! No two finite floats have the same text: it says a value, which reads back to one float only. -/
namespace SeriesIngest.Decimal

/-! What a decimal text says. -/

def textValue (text : List Char) : Rat :=
  ofDigits (text.filter Char.isDigit) / 10 ^ (text.dropWhile Char.isDigit).tail.length

theorem ofDigits_append (ds more : List Char) :
    ofDigits (ds ++ more) = ofDigits ds * 10 ^ more.length + ofDigits more := by
  have hfrom (start : Nat) : more.foldl (fun n c => 10 * n + digitValue c) start =
      start * 10 ^ more.length + ofDigits more := by
    unfold ofDigits
    induction more generalizing start with
    | nil => simp
    | cons c more ih =>
      rw [List.foldl_cons, List.foldl_cons, ih, ih (10 * 0 + digitValue c), List.length_cons]
      ring
  rw [ofDigits, List.foldl_append]
  exact hfrom _

theorem ofDigits_zeros_append (n : Nat) (ds : List Char) :
    ofDigits (List.replicate n '0' ++ ds) = ofDigits ds := by
  induction n with
  | zero => rfl
  | succ n ih =>
    rw [List.replicate_succ, ← ih]
    rfl

theorem textValue_whole {ds : List Char} (h : ds.all Char.isDigit) : textValue ds = ofDigits ds := by
  have hdrop := Line.dropWhile_digits h []
  rw [List.append_nil, List.dropWhile_nil] at hdrop
  rw [textValue, hdrop, List.filter_eq_self.2 (List.all_eq_true.1 h)]
  simp

theorem textValue_point {ds places : List Char} (h : ds.all Char.isDigit)
    (hplaces : places.all Char.isDigit) :
    textValue (ds ++ '.' :: places) = ofDigits (ds ++ places) / 10 ^ places.length := by
  have hpoint : ¬ ('.' : Char).isDigit := by decide
  rw [textValue, Line.dropWhile_digits h, List.dropWhile_cons_of_neg hpoint, List.tail_cons,
    List.filter_append, List.filter_cons_of_neg hpoint, List.filter_eq_self.2 (List.all_eq_true.1 h),
    List.filter_eq_self.2 (List.all_eq_true.1 hplaces)]

theorem all_zeros (n : Nat) : (List.replicate n '0').all Char.isDigit := by
  rw [List.all_replicate]
  simp

/-! The three forms of a decimal: zeros after the digits, the point among them, zeros before them. -/

theorem textValue_zeros_after (factor n : Nat) :
    textValue (digits factor ++ List.replicate n '0') = factor * 10 ^ n := by
  have hall : (digits factor ++ List.replicate n '0').all Char.isDigit := by
    rw [List.all_append, Line.all_digits, all_zeros]
    rfl
  have hzeros := ofDigits_zeros_append n []
  rw [List.append_nil] at hzeros
  rw [textValue_whole hall, ofDigits_append, ofDigits_digits, hzeros, List.length_replicate]
  simp [ofDigits]

theorem textValue_point_among {factor places : Nat} (h : places < (digits factor).length) :
    textValue ((digits factor).take ((digits factor).length - places) ++
      '.' :: (digits factor).drop ((digits factor).length - places)) = factor / 10 ^ places := by
  have hall := List.all_eq_true.1 (Line.all_digits factor)
  rw [textValue_point (List.all_eq_true.2 fun c hc => hall c (List.mem_of_mem_take hc))
    (List.all_eq_true.2 fun c hc => hall c (List.mem_of_mem_drop hc)), List.take_append_drop,
    ofDigits_digits, List.length_drop, Nat.sub_sub_self h.le]

theorem textValue_zeros_before {factor places : Nat} (h : (digits factor).length ≤ places) :
    textValue ('0' :: '.' :: (List.replicate (places - (digits factor).length) '0' ++
      digits factor)) = factor / 10 ^ places := by
  let zeros := List.replicate (places - (digits factor).length) '0'
  have hall : (zeros ++ digits factor).all Char.isDigit := by
    rw [List.all_append, Line.all_digits, all_zeros]
    rfl
  have hdigits : ofDigits (['0'] ++ (zeros ++ digits factor)) = factor :=
    (ofDigits_zeros_append (_ + 1) _).trans (ofDigits_digits factor)
  have hvalue := textValue_point (show ['0'].all Char.isDigit by decide) hall
  rw [hdigits, List.length_append, List.length_replicate, Nat.sub_add_cancel h] at hvalue
  exact hvalue

theorem textValue_positional (factor : Nat) (k : Int) :
    textValue (positional factor k) = factor * 10 ^ k := by
  unfold positional
  dsimp only
  split
  · rename_i hk
    rw [textValue_zeros_after, ← zpow_natCast, Int.toNat_of_nonneg hk]
  · rename_i hk
    rw [zpow_of_neg 10 (by omega), ← div_eq_mul_inv]
    split
    · rename_i hinside
      exact textValue_point_among hinside
    · rename_i hbefore
      exact textValue_zeros_before (Nat.le_of_not_lt hbefore)

/-! The text of a float. -/

def magnitude (x : Binary64) : List Char :=
  if x.isZero then ['0'] else positional (shortest x).1 (shortest x).2

theorem floatText_of_finite {x : Binary64} (h : x.isFinite) :
    floatText x = if x.isNegative then '-' :: magnitude x else magnitude x := by
  simp [floatText, Binary64.isNaN, h, magnitude]

theorem unsigned_magnitude (x : Binary64) : Line.unsigned (magnitude x) = magnitude x := by
  unfold magnitude
  split
  · rfl
  · exact (Line.magnitude_positional _ _).unsigned

theorem holds_magnitude {x : Binary64} (h : x.isFinite) :
    (Interval.nth (x.bits.toNat % 2 ^ 63)).Holds (textValue (magnitude x)) := by
  rw [← Interval.of_eq_nth]
  unfold magnitude
  split
  · rename_i hzero
    have hparts : x.exponentField = 0 ∧ x.fraction = 0 := by simpa [Binary64.isZero] using hzero
    have hsignificand : x.significand = 0 := by rw [Binary64.significand, if_pos hparts.1, hparts.2]
    have hvalue : textValue ['0'] = 0 := by simp [textValue, ofDigits, digitValue]
    rw [hvalue]
    refine ⟨?_, ?_, fun hopen => ?_⟩
    · simp [Interval.low, Interval.of, hsignificand]
    · rw [Interval.high]
      positivity
    · simp [Interval.of, hsignificand] at hopen
  · rw [textValue_positional]
    exact holds_shortest h

/-- **Two finite floats with the same text are the same**, signs of zeros included. -/
theorem floatText_injective {x y : Binary64} (hx : x.isFinite) (hy : y.isFinite)
    (h : floatText x = floatText y) : x = y := by
  rw [floatText_of_finite hx, floatText_of_finite hy] at h
  have hsigned (a b : Binary64) : '-' :: magnitude a ≠ magnitude b := by
    intro heq
    have hunsigned := unsigned_magnitude b
    rw [← heq] at hunsigned
    exact List.cons_ne_self _ _ hunsigned.symm
  have hsame : magnitude x = magnitude y ∧ x.isNegative = y.isNegative := by
    cases hnegx : x.isNegative <;> cases hnegy : y.isNegative <;> simp [hnegx, hnegy] at h
    · exact ⟨h, rfl⟩
    · exact absurd h.symm (hsigned y x)
    · exact absurd h (hsigned x y)
    · exact ⟨h, rfl⟩
  obtain ⟨hmagnitude, hsign⟩ := hsame
  have hholds := holds_magnitude hx
  rw [hmagnitude] at hholds
  have hlow := hholds.unique (holds_magnitude hy)
  have hx64 := x.bits.toNat_lt
  have hy64 := y.bits.toNat_lt
  rw [Binary64.isNegative, Binary64.isNegative, decide_eq_decide] at hsign
  obtain ⟨bits⟩ := x
  obtain ⟨bits'⟩ := y
  exact congrArg Binary64.mk (UInt64.toNat_inj.1 (by dsimp only at *; omega))

end SeriesIngest.Decimal
