import SeriesIngest.Line.Reader

/-! Readers take back what was written, up to where they must stop. What was escaped comes back
as it was, unless a backslash at its end escapes what follows. -/
namespace SeriesIngest.Line

/-- The reader gives the value and leaves what follows the written text. -/
def Reads (r : Reader α) (written : List Char) (a : α) (rest : List Char) : Prop :=
  r.read (written ++ rest) = some (a, rest)

def Stops (ends : Char → Bool) (rest : List Char) : Prop := rest.head?.all ends

theorem Stops.mono {ends more : Char → Bool} {rest : List Char} (h : Stops ends rest)
    (hmore : ∀ c, ends c → more c) : Stops more rest := by
  cases rest with
  | nil => rfl
  | cons c rest => exact hmore c h

theorem Stops.ne {ends : Char → Bool} {rest : List Char} (h : Stops ends rest) {c : Char}
    (hc : ends c = false) : rest.head? ≠ some c := by
  cases rest with
  | nil => simp
  | cons d rest =>
    rintro ⟨⟩
    rw [Stops, List.head?_cons, Option.all_some, hc] at h
    cases h

namespace Reads

theorem pure (a : α) (rest : List Char) : Reads (Pure.pure a) [] a rest := rfl

theorem bind {r : Reader α} {f : α → Reader β} {first second rest : List Char} {a : α} {b : β}
    (h : Reads r first a (second ++ rest)) (h' : Reads (f a) second b rest) :
    Reads (r >>= f) (first ++ second) b rest := by
  have hread (input : List Char) :
      (r >>= f).read input = (r.read input).bind fun p => (f p.1).read p.2 := rfl
  rw [Reads, hread, List.append_assoc, h]
  exact h'

theorem after {r : Reader α} {f : α → Reader β} {written rest : List Char} {a : α} {b : β}
    (h : Reads r [] a (written ++ rest)) (h' : Reads (f a) written b rest) :
    Reads (r >>= f) written b rest := h.bind h'

theorem finish {r : Reader α} {f : α → Reader β} {written rest : List Char} {a : α} {b : β}
    (h : Reads r written a rest) (h' : Reads (f a) [] b rest) : Reads (r >>= f) written b rest := by
  have hbind : Reads (r >>= f) (written ++ []) b rest := h.bind h'
  rwa [List.append_nil] at hbind

end Reads

theorem reads_ofOption {value : Option α} {a : α} (h : value = some a) (rest : List Char) :
    Reads (.ofOption value) [] a rest := by
  subst h
  rfl

theorem reads_guard {condition : Bool} (h : condition) (rest : List Char) :
    Reads (.guard condition) [] () rest := by
  subst h
  rfl

theorem reads_skip? (c : Char) (rest : List Char) : Reads (.skip? c) [c] true rest := by
  simp [Reads, Reader.skip?]

theorem reads_skip?_of_ne {c : Char} {rest : List Char} (h : rest.head? ≠ some c) :
    Reads (.skip? c) [] false rest := by
  cases rest with
  | nil => rfl
  | cons d rest =>
    have hd : d ≠ c := by simpa using h
    simp [Reads, Reader.skip?, hd]

theorem reads_skip (c : Char) (rest : List Char) : Reads (.skip c) [c] () rest :=
  (reads_skip? c rest).finish (reads_guard rfl rest)

theorem reads_stops (ends : Char → Bool) (rest : List Char) :
    Reads (.stops ends) [] (rest.head?.all ends) rest := rfl

/-- What a text must be for its escaped form to come back: each character that could end it is
escaped, and no backslash of its own stands directly before a special character. -/
structure Survives (special ends : Char → Bool) (text : List Char) : Prop where
  inside : ∀ c ∈ text, ends c → special c
  last : special '\\' ∨ text.getLast? ≠ some '\\'

theorem Survives.tail {special ends : Char → Bool} {c : Char} {text : List Char}
    (h : Survives special ends (c :: text)) : Survives special ends text where
  inside d hd := h.inside d (List.mem_cons_of_mem c hd)
  last := by
    rcases h.last with hspecial | hlast
    · exact .inl hspecial
    · cases text with
      | nil => simp
      | cons d text => exact .inr (by simpa using hlast)

theorem cut_of_stops {special ends : Char → Bool} (hbackslash : ends '\\' = false)
    {rest : List Char} (h : Stops ends rest) : Reader.cut special ends rest = ([], rest) := by
  match rest with
  | [] => rfl
  | [c] =>
    have hc : ends c := h
    rw [Reader.cut, if_pos hc]
  | c :: d :: rest =>
    have hc : ends c := h
    have hne : c ≠ '\\' := by
      rintro rfl
      rw [hbackslash] at hc
      cases hc
    rw [Reader.cut, if_neg (fun hescape => hne hescape.1), if_pos hc]

theorem cut_cons {special ends : Char → Bool} {c : Char} {rest : List Char} (hc : ends c = false)
    (hescape : c = '\\' → ∀ d, rest.head? = some d → special d = false) :
    Reader.cut special ends (c :: rest) =
      (c :: (Reader.cut special ends rest).1, (Reader.cut special ends rest).2) := by
  cases rest with
  | nil => simp [Reader.cut, hc]
  | cons d rest =>
    have hno : ¬ (c = '\\' ∧ special d) := by
      rintro ⟨hbackslash, hd⟩
      rw [hescape hbackslash d rfl] at hd
      cases hd
    rw [Reader.cut, if_neg hno, hc]
    rfl

/-- An escaped text is cut off where it ends, and comes back unescaped. -/
theorem cut_escapeChars {special ends : Char → Bool} (hbackslash : ends '\\' = false)
    {text rest : List Char} (h : Survives special ends text) (hrest : Stops ends rest) :
    Reader.cut special ends (escapeChars special text ++ rest) = (text, rest) := by
  induction text with
  | nil => exact cut_of_stops hbackslash hrest
  | cons c text ih =>
    rw [escapeChars_cons]
    cases hc : special c with
    | true =>
      simp only [if_true, List.cons_append, List.nil_append]
      rw [Reader.cut, if_pos ⟨rfl, hc⟩, ih h.tail]
    | false =>
      have hends : ends c = false := by
        cases hends : ends c with
        | false => rfl
        | true => rw [h.inside c List.mem_cons_self hends] at hc; cases hc
      simp only [Bool.false_eq_true, if_false, List.cons_append, List.nil_append]
      rw [cut_cons hends, ih h.tail]
      rintro rfl d hd
      -- the backslash is not special: the text goes on, and not with a special character
      cases text with
      | nil => simpa [hc] using h.last
      | cons e text =>
        rw [escapeChars_cons] at hd
        cases he : special e with
        | true =>
          obtain rfl : '\\' = d := by simpa [he] using hd
          exact hc
        | false =>
          obtain rfl : e = d := by simpa [he] using hd
          exact he

theorem reads_text {special ends : Char → Bool} (hbackslash : ends '\\' = false) {text : String}
    {rest : List Char} (h : Survives special ends text.toList) (hrest : Stops ends rest) :
    Reads (.text special ends) (escapeChars special text.toList) text rest := by
  rw [Reads, Reader.text]
  simp only [cut_escapeChars hbackslash h hrest, String.ofList_toList]

theorem stops_each {mark : Char} {follows : Char → Bool} (hmark : follows mark)
    (write : α → List Char) (items : List α) {rest : List Char} (h : Stops follows rest) :
    Stops follows ((items.flatMap fun a => mark :: write a) ++ rest) := by
  cases items with
  | nil => exact h
  | cons a items => exact hmark

theorem reads_each {mark : Char} {item : Reader β} {follows : Char → Bool} {write : α → List Char}
    {value : α → β} {items : List α} (hmark : follows mark)
    (h : ∀ a ∈ items, ∀ rest, Stops follows rest → Reads item (write a) (value a) rest)
    {rest : List Char} (hfollows : Stops follows rest) (hend : rest.head? ≠ some mark) :
    Reads (.each mark item) (items.flatMap fun a => mark :: write a) (items.map value) rest := by
  induction items with
  | nil =>
    cases rest with
    | nil => simp [Reads, Reader.each, Reader.eachFrom]
    | cons c rest =>
      have hc : c ≠ mark := by simpa using hend
      simp [Reads, Reader.each, Reader.eachFrom, hc]
  | cons a items ih =>
    have hrest := ih fun b hb => h b (List.mem_cons_of_mem a hb)
    have hitem := h a List.mem_cons_self _ (stops_each hmark write items hfollows)
    simp only [Reads, Reader.each] at hitem hrest ⊢
    rw [List.flatMap_cons, List.append_assoc, List.cons_append, Reader.eachFrom, if_pos rfl]
    split
    · rename_i hnone
      rw [hitem] at hnone
      cases hnone
    · rename_i b middle hsome
      rw [hitem] at hsome
      cases hsome
      rw [hrest]
      rfl

theorem reads_separated {mark : Char} {item : Reader β} {follows : Char → Bool}
    {write : α → List Char} {value : α → β} {first : α} {items : List α} (hmark : follows mark)
    (h : ∀ a ∈ first :: items, ∀ rest, Stops follows rest → Reads item (write a) (value a) rest)
    {rest : List Char} (hfollows : Stops follows rest) (hend : rest.head? ≠ some mark) :
    Reads (.separated mark item) (write first ++ items.flatMap fun a => mark :: write a)
      ((first :: items).map value) rest := by
  refine (h first List.mem_cons_self _ (stops_each hmark write items hfollows)).bind ?_
  have hrest := fun a ha => h a (List.mem_cons_of_mem first ha)
  exact (reads_each hmark hrest hfollows hend).finish (.pure _ _)

end SeriesIngest.Line
