import SeriesIngest.Decimal.Shortest
import SeriesIngest.Proofs.Line.Reading
import Mathlib.Data.List.TakeWhile

/-! The literals of numbers are told apart by their characters, and an integer is read back. -/
namespace SeriesIngest.Line

def isWordChar (c : Char) : Bool := c.isAlphanum || c = '-' || c = '.'

theorem isWordChar_of_isDigit {c : Char} (h : c.isDigit) : isWordChar c := by
  simp [isWordChar, Char.isAlphanum, h]

theorem digits_ne_nil (n : Nat) : Decimal.digits n ≠ [] := by
  rw [Decimal.digits]
  split <;> simp

theorem all_digits (n : Nat) : (Decimal.digits n).all Char.isDigit :=
  List.all_eq_true.2 fun _ => Decimal.isDigit_of_mem_digits

theorem unsigned_of_digits {whole : List Char} (hne : whole ≠ []) (h : whole.all Char.isDigit)
    (rest : List Char) : unsigned (whole ++ rest) = whole ++ rest := by
  cases whole with
  | nil => exact absurd rfl hne
  | cons c whole =>
    have hc : c ≠ '-' := by
      rintro rfl
      simp at h
    unfold unsigned
    split
    · rename_i heq
      cases heq
      exact absurd rfl hc
    · rfl

theorem unsigned_intDigits (i : Int) (rest : List Char) :
    unsigned (Decimal.intDigits i ++ rest) = Decimal.digits i.natAbs ++ rest := by
  unfold Decimal.intDigits
  split
  · rfl
  · exact unsigned_of_digits (digits_ne_nil _) (all_digits _) rest

theorem head?_intDigits (i : Int) : (Decimal.intDigits i).head? = some '-' ↔ i < 0 := by
  unfold Decimal.intDigits
  by_cases h : i < 0
  · simp [h]
  · rw [if_neg h]
    refine ⟨fun hhead => ?_, fun hneg => absurd hneg h⟩
    have hdigit := Decimal.isDigit_of_mem_digits (List.mem_of_mem_head? hhead)
    simp at hdigit

theorem int?_intDigits (v : Int64) : int? (Decimal.intDigits v.toInt) = some v := by
  have hunsigned := unsigned_intDigits v.toInt []
  simp only [List.append_nil] at hunsigned
  have hrange : Int64.minValue.toInt ≤ v.toInt ∧ v.toInt ≤ Int64.maxValue.toInt :=
    ⟨v.le_toInt, v.toInt_le⟩
  have hvalue : (if (Decimal.intDigits v.toInt).head? = some '-' then
      -((Decimal.ofDigits (Decimal.digits v.toInt.natAbs) : Nat) : Int)
      else Decimal.ofDigits (Decimal.digits v.toInt.natAbs)) = v.toInt := by
    rw [Decimal.ofDigits_digits]
    simp only [head?_intDigits]
    split <;> omega
  unfold int?
  dsimp only
  rw [hunsigned, hvalue, all_digits, if_pos hrange, Int64.ofInt_toInt]
  simp [digits_ne_nil]

theorem isWordChar_intDigits {i : Int} {c : Char} (h : c ∈ Decimal.intDigits i) :
    isWordChar c := by
  unfold Decimal.intDigits at h
  split at h
  · rcases List.mem_cons.1 h with rfl | h
    · rfl
    · exact isWordChar_of_isDigit (Decimal.isDigit_of_mem_digits h)
  · exact isWordChar_of_isDigit (Decimal.isDigit_of_mem_digits h)

theorem takeWhile_digits {whole : List Char} (h : whole.all Char.isDigit) (rest : List Char) :
    (whole ++ rest).takeWhile Char.isDigit = whole ++ rest.takeWhile Char.isDigit :=
  List.takeWhile_append_of_pos (List.all_eq_true.1 h)

theorem dropWhile_digits {whole : List Char} (h : whole.all Char.isDigit) (rest : List Char) :
    (whole ++ rest).dropWhile Char.isDigit = rest.dropWhile Char.isDigit :=
  List.dropWhile_append_of_pos (List.all_eq_true.1 h)

theorem isDecimal_intDigits (i : Int) : isDecimal (Decimal.intDigits i ++ ['i']) = false := by
  unfold isDecimal
  rw [unsigned_intDigits, dropWhile_digits (all_digits _)]
  simp

inductive Magnitude : List Char → Prop
  | whole {ds : List Char} (hne : ds ≠ []) (h : ds.all Char.isDigit) : Magnitude ds
  | fraction {ds places : List Char} (hne : ds ≠ []) (h : ds.all Char.isDigit)
    (hplaces : places ≠ []) (hdigits : places.all Char.isDigit) : Magnitude (ds ++ '.' :: places)

theorem Magnitude.unsigned {magnitude : List Char} (h : Magnitude magnitude) :
    Line.unsigned magnitude = magnitude := by
  cases h with
  | whole hne h => simpa using unsigned_of_digits hne h []
  | fraction hne h => exact unsigned_of_digits hne h _

theorem Magnitude.isDecimal {word : List Char} (h : Magnitude (Line.unsigned word)) :
    Line.isDecimal word := by
  unfold Line.isDecimal
  generalize Line.unsigned word = magnitude at h
  cases h with
  | whole hne h =>
    have htake := takeWhile_digits h []
    have hdrop := dropWhile_digits h []
    simp only [List.append_nil, List.takeWhile_nil, List.dropWhile_nil] at htake hdrop
    simp [htake, hdrop, hne]
  | fraction hne h hplaces hdigits =>
    have hpoint : ('.' : Char).isDigit = false := by decide
    rw [takeWhile_digits h, dropWhile_digits h, List.dropWhile_cons_of_neg (by simp [hpoint])]
    simp only [List.isEmpty_eq_false_iff.2 hplaces, hdigits]
    simp [hne]

/-- Digits, whole or with a point among them or before them. -/
theorem magnitude_positional (factor : Nat) (k : Int) :
    Magnitude (Decimal.positional factor k) := by
  have hdigits := all_digits factor
  have hall := List.all_eq_true.1 hdigits
  unfold Decimal.positional
  dsimp only
  split
  · refine .whole (by simp [digits_ne_nil]) ?_
    rw [List.all_append, hdigits, List.all_replicate]
    simp
  · rename_i hneg
    split
    · rename_i hinside
      refine .fraction ?_ (List.all_eq_true.2 fun c hc => hall c (List.mem_of_mem_take hc)) ?_
        (List.all_eq_true.2 fun c hc => hall c (List.mem_of_mem_drop hc))
      · rw [Ne, List.take_eq_nil_iff]
        simp only [digits_ne_nil, or_false]
        omega
      · rw [Ne, List.drop_eq_nil_iff]
        omega
    · refine .fraction (List.cons_ne_nil '0' []) (by decide) (by simp [digits_ne_nil]) ?_
      rw [List.all_append, hdigits, List.all_replicate]
      simp

theorem Magnitude.isWordChar {word : List Char} (h : Magnitude (Line.unsigned word)) {c : Char}
    (hc : c ∈ word) : Line.isWordChar c := by
  have hsign : c = '-' ∨ c ∈ Line.unsigned word := by
    unfold Line.unsigned
    split
    · exact List.mem_cons.1 hc
    · exact .inr hc
  generalize Line.unsigned word = magnitude at h hsign
  rcases hsign with rfl | hc
  · rfl
  · cases h with
    | whole _ h => exact isWordChar_of_isDigit (List.all_eq_true.1 h c hc)
    | fraction _ h _ hdigits =>
      rcases List.mem_append.1 hc with hc | hc
      · exact isWordChar_of_isDigit (List.all_eq_true.1 h c hc)
      · rcases List.mem_cons.1 hc with rfl | hc
        · rfl
        · exact isWordChar_of_isDigit (List.all_eq_true.1 hdigits c hc)

theorem magnitude_floatText {v : Binary64} (h : v.isFinite) :
    Magnitude (unsigned (Decimal.floatText v)) := by
  have hmagnitude : Magnitude (if v.isZero then ['0'] else
      Decimal.positional (Decimal.shortest v).1 (Decimal.shortest v).2) := by
    split
    · exact .whole (List.cons_ne_nil _ _) (by decide)
    · exact magnitude_positional _ _
  unfold Decimal.floatText
  simp only [h, Bool.not_true, Bool.false_eq_true, if_false]
  split
  · exact hmagnitude
  · rw [hmagnitude.unsigned]
    exact hmagnitude

end SeriesIngest.Line
